import ValueIteration.Planner.Machine

/-!
# What an operation leaves alone

The frame of a core is everything but the contents of its states, its queues and its
bookkeeping. Between two moves of the window no operation changes it, and the window's
cells and the shapes of all parts depend on nothing else.
-/

set_option autoImplicit false
set_option linter.unusedSectionVars false

namespace ValueIteration

namespace ValueIterator

section
variable (vi : ValueIterator)

@[simp] theorem table_repairValues : vi.repairValues.table = vi.table := rfl

@[simp] theorem table_mapColumn (f : State → State) (c : Cell) :
    (vi.mapColumn f c).table = vi.table :=
  foldl_keeps table (fun v _ => table_setState v _ _) _ vi

@[simp] theorem table_writeColumn (c : Cell) (u : Nat → Nat × Option Nat) :
    (vi.writeColumn c u).table = vi.table :=
  foldl_keeps table (fun v _ => table_setState v _ _) _ vi

@[simp] theorem table_passOver (ps : List Pos) (delta : Nat) :
    (vi.passOver ps delta).1.table = vi.table :=
  foldl_keeps (fun r : ValueIterator × Nat => r.1.table)
    (f := fun r p => ((r.1.valueIterationRaw p).1, saturatingAdd r.2 (r.1.valueIterationRaw p).2))
    (fun r p => table_valueIterationRaw r.1 p) ps (vi, delta)

end

end ValueIterator

/-- What the window of a local iterator is made of. -/
structure LocalFrame (K : Type) where
  table : Dims × List Action
  xyResolution : K
  mapOrigin : K × K
  xs : Int × Int
  ys : Int × Int
  range : Int
  shape : LocalShapeConfig K
  axes : K × K × K
  center : K × K
  heading : K × K

section
variable {K : Type}

namespace ValueIteratorLocal

def frame (l : ValueIteratorLocal K) : LocalFrame K where
  table := l.base.table
  xyResolution := l.xyResolution
  mapOrigin := l.mapOrigin
  xs := (l.localIxMin, l.localIxMax)
  ys := (l.localIyMin, l.localIyMax)
  range := l.localIxyRange
  shape := l.shape
  axes := (l.aFwd, l.aBwd, l.lat)
  center := l.center
  heading := (l.cosT, l.sinT)

theorem frame_withBase {l : ValueIteratorLocal K} {b : ValueIterator}
    (h : b.table = l.base.table) : ({ l with base := b } : ValueIteratorLocal K).frame = l.frame := by
  unfold frame
  rw [h]

@[simp] theorem frame_mapColumn (l : ValueIteratorLocal K) (f : State → State) (c : Cell) :
    (l.mapColumn f c).frame = l.frame :=
  frame_withBase (ValueIterator.table_mapColumn _ _ _)

/-- The window lies within the base. -/
def WindowInside (l : ValueIteratorLocal K) : Prop :=
  (0 ≤ l.localIxMin ∧ l.localIxMax < l.base.dims.nx) ∧
    0 ≤ l.localIyMin ∧ l.localIyMax < l.base.dims.ny

theorem windowInside_congr {l l' : ValueIteratorLocal K} (h : l'.frame = l.frame)
    (hw : l.WindowInside) : l'.WindowInside := by
  simp only [frame, ValueIterator.table, LocalFrame.mk.injEq, Prod.mk.injEq] at h
  obtain ⟨⟨hd, _⟩, _, _, ⟨hx0, hx1⟩, ⟨hy0, hy1⟩, _⟩ := h
  unfold WindowInside
  rw [hd, hx0, hx1, hy0, hy1]
  exact hw

end ValueIteratorLocal

end

theorem walkBeam_keeps {K : Type} [Field K] [LinearOrder K] {σ β : Type} (g : σ → β)
    {visit : σ → K → K → σ × Bool} (h : ∀ st wx wy, g (visit st wx wy).1 = g st)
    (x y ca sa step stop : K) (n : Nat) : ∀ s st,
      g (walkBeam visit x y ca sa step stop n s st) = g st := by
  induction n with
  | zero => exact fun _ _ => rfl
  | succ n ih =>
    intro s st
    unfold walkBeam
    simp only
    split
    · split
      · exact (ih _ _).trans (h _ _ _)
      · exact h _ _ _
    · rfl

section
variable {K : Type} [Field K] [LinearOrder K]

theorem walkBeams_keeps [FloorRing K] [Trig K] {σ β : Type} (g : σ → β) {visit : σ → K → K → σ × Bool}
    (h : ∀ st wx wy, g (visit st wx wy).1 = g st) (msg : LaserScan K) (x y t step stopBack : K)
    (st : σ) : g (walkBeams msg x y t step stopBack visit st) = g st :=
  foldl_keeps g (fun _ _ => walkBeam_keeps g h _ _ _ _ _ _ _ _ _) _ st

namespace ValueIteratorLocal

section
variable (l : ValueIteratorLocal K)

theorem inLocalArea_congr {l l' : ValueIteratorLocal K} (h : l'.frame = l.frame) :
    l'.inLocalArea = l.inLocalArea := by
  simp only [frame, LocalFrame.mk.injEq, Prod.mk.injEq] at h
  obtain ⟨_, _, _, ⟨hx0, hx1⟩, ⟨hy0, hy1⟩, _, hs, ⟨ha, hb, hl⟩, hc, hco, hsi⟩ := h
  funext ix iy
  simp only [inLocalArea, inShape, hx0, hx1, hy0, hy1, hs, ha, hb, hl, hc, hco, hsi]

theorem windowRows_congr {l l' : ValueIteratorLocal K} (h : l'.frame = l.frame) :
    l'.windowRows = l.windowRows := by
  have harea := inLocalArea_congr h
  simp only [frame, LocalFrame.mk.injEq, Prod.mk.injEq] at h
  obtain ⟨_, _, _, ⟨hx0, hx1⟩, ⟨hy0, hy1⟩, _⟩ := h
  simp only [windowRows, windowXs, windowYs, harea, hx0, hx1, hy0, hy1]

theorem mem_windowRows {c : Cell} : c ∈ l.windowRows ↔ l.inLocalArea c.1 c.2 = true := by
  obtain ⟨x, y⟩ := c
  simp only [windowRows, windowXs, windowYs, List.mem_filter, List.mem_flatMap, List.mem_map,
    mem_span, Prod.mk.injEq]
  constructor
  · exact fun h => h.2
  · intro h
    refine ⟨?_, h⟩
    have hin : ¬ (x < l.localIxMin ∨ l.localIxMax < x ∨ y < l.localIyMin ∨ l.localIyMax < y) := by
      intro hn
      simp [inLocalArea, hn] at h
    exact ⟨y, by omega, x, by omega, rfl, rfl⟩

theorem mem_windowColumns {c : Cell} : c ∈ l.windowColumns ↔ l.inLocalArea c.1 c.2 = true := by
  obtain ⟨x, y⟩ := c
  simp only [windowColumns, windowXs, windowYs, List.mem_filter, List.mem_flatMap, List.mem_map,
    mem_span, Prod.mk.injEq]
  constructor
  · exact fun h => h.2
  · intro h
    refine ⟨?_, h⟩
    have hin : ¬ (x < l.localIxMin ∨ l.localIxMax < x ∨ y < l.localIyMin ∨ l.localIyMax < y) := by
      intro hn
      simp [inLocalArea, hn] at h
    exact ⟨x, by omega, y, by omega, rfl, rfl⟩

theorem inLocalArea_bounds {ix iy : Int} (h : l.inLocalArea ix iy = true) :
    (l.localIxMin ≤ ix ∧ ix ≤ l.localIxMax) ∧ l.localIyMin ≤ iy ∧ iy ≤ l.localIyMax := by
  have hin : ¬ (ix < l.localIxMin ∨ l.localIxMax < ix ∨ iy < l.localIyMin ∨
      l.localIyMax < iy) := by
    intro hn
    simp [inLocalArea, hn] at h
  omega

@[simp] theorem frame_halve (c : Cell) : (l.halve c).frame = l.frame := by
  unfold halve
  split
  · exact frame_mapColumn _ _ _
  · rfl

@[simp] theorem frame_inject (v : Nat) (c : Cell) : (l.inject v c).frame = l.frame := by
  unfold inject
  split
  · exact frame_mapColumn _ _ _
  · rfl

@[simp] theorem frame_clearCell (c : Cell) : (l.clearCell c).1.frame = l.frame := by
  unfold clearCell
  split
  · exact frame_mapColumn _ _ _
  · rfl

variable [FloorRing K]

@[simp] theorem frame_setLocalCostAttenuated [Trig K] (msg : LaserScan K) (x y t : K)
    (shift : Nat) : (l.setLocalCostAttenuated msg x y t shift).frame = l.frame := by
  unfold setLocalCostAttenuated
  extract_lets inj marked res
  have hmarked : marked.frame = l.frame := by
    apply foldl_keeps frame
    intro s i
    exact (foldl_keeps frame (fun s c => frame_inject s _ c) _ _).trans
      (foldl_keeps frame frame_halve _ _)
  split
  · refine Eq.trans ?_ hmarked
    exact walkBeams_keeps frame (fun s wx wy => frame_clearCell s _) _ _ _ _ _ _ _
  · exact hmarked

@[simp] theorem frame_inflateBySigma (extra : K) : (l.inflateBySigma extra).frame = l.frame := by
  unfold inflateBySigma
  split
  · rfl
  · have hdist : l.ensureObstacleDist.frame = l.frame := by
      unfold ensureObstacleDist
      split <;> rfl
    refine (foldl_keeps frame ?_ _ _).trans hdist
    intro s c
    simp only
    split
    · rfl
    · exact frame_mapColumn _ _ _

end

end ValueIteratorLocal

end

/-- Everything of a core but contents, queues and bookkeeping. -/
structure CoreFrame (K : Type) where
  build : BuildParams K
  cfg : PlanConfig K
  field : Option (LocalFrame K ⊕ Dims)
  patch : Option (LocalFrame K × Int × Int × Option Cell)
  repair : Option ((Dims × List Action) × Int × Int × Int × Int × Nat)
  overlay : Option Dims

namespace GoalField

def frame {K : Type} : GoalField K → LocalFrame K ⊕ Dims
  | dense l => .inl l.frame
  | compact f => .inr f.sink.dims

end GoalField

def Patch.frame {K : Type} (p : Patch K) : LocalFrame K × Int × Int × Option Cell :=
  (p.vi.frame, p.half, p.reach, p.hydratedAt)

def Repair.frame (r : Repair) : (Dims × List Action) × Int × Int × Int × Int × Nat :=
  (r.vi.table, r.interior, r.halo, r.tnx, r.tny, r.queued.length)

@[simp] theorem Repair.frame_push (r : Repair) (t : Nat) : (r.push t).frame = r.frame := by
  unfold Repair.push
  split
  · rfl
  · simp [Repair.frame]

@[simp] theorem Repair.frame_enqueueAround (r : Repair) (b : Int × Int × Int × Int) :
    (r.enqueueAround b).frame = r.frame :=
  foldl_keeps Repair.frame Repair.frame_push _ r

@[simp] theorem Repair.frame_enqueueAll (r : Repair) : r.enqueueAll.frame = r.frame :=
  foldl_keeps Repair.frame Repair.frame_push _ r

@[simp] theorem Repair.frame_clear (r : Repair) : r.clear.frame = r.frame := by
  simp [Repair.clear, Repair.settle, Repair.frame]

namespace PlannerCore

section
variable {K : Type}

def frame (core : PlannerCore K) : CoreFrame K where
  build := core.build
  cfg := core.cfg
  field := core.cached.map (·.field.frame)
  patch := core.patch.map (·.frame)
  repair := core.repair.map (·.frame)
  overlay := core.penalty.map (·.values.dims)

/-- The shapes of a core depend on its frame only. -/
theorem Shaped.of_frame {core core' : PlannerCore K} (hs : core.Shaped)
    (h : core'.frame = core.frame) : core'.Shaped := by
  simp only [frame, CoreFrame.mk.injEq] at h
  obtain ⟨hb, hc, hfield, hpatch, hrepair, hover⟩ := h
  refine ⟨?_, ?_, ?_, ?_, ?_⟩
  · intro l part hl
    rw [hl, Option.map_some] at hfield
    obtain ⟨⟨field, part₀⟩, h₀, heq⟩ := Option.map_eq_some_iff.mp hfield.symm
    cases field with
    | compact f => simp [GoalField.frame] at heq
    | dense l₀ =>
      simp only [GoalField.frame, Sum.inl.injEq] at heq
      have htab : l₀.base.table = l.base.table := congrArg LocalFrame.table heq
      simp only [ValueIterator.table, Prod.mk.injEq] at htab
      obtain ⟨huse, hd, ha⟩ := hs.dense l₀ part₀ h₀
      refine ⟨by rw [hc]; exact huse, ?_, ?_⟩
      · rw [← htab.1, hd, mapDims, mapDims, hb]
      · rw [← htab.2, ha, hb]
  · intro f part hf
    rw [hf, Option.map_some] at hfield
    obtain ⟨⟨field, part₀⟩, h₀, heq⟩ := Option.map_eq_some_iff.mp hfield.symm
    cases field with
    | dense l => simp [GoalField.frame] at heq
    | compact f₀ =>
      simp only [GoalField.frame, Sum.inr.injEq] at heq
      obtain ⟨huse, hd⟩ := hs.compact f₀ part₀ h₀
      exact ⟨by rw [hc]; exact huse, by rw [← heq, hd, mapDims, mapDims, hb]⟩
  · intro p hp
    rw [hp, Option.map_some] at hpatch
    obtain ⟨p₀, h₀, heq⟩ := Option.map_eq_some_iff.mp hpatch.symm
    simp only [Patch.frame, Prod.mk.injEq] at heq
    obtain ⟨hvi, hhalf, hreach, _⟩ := heq
    have htab : p₀.vi.base.table = p.vi.base.table := congrArg LocalFrame.table hvi
    have hrange : p₀.vi.localIxyRange = p.vi.localIxyRange := congrArg LocalFrame.range hvi
    simp only [ValueIterator.table, Prod.mk.injEq] at htab
    obtain ⟨huse, ⟨hd, ha⟩, hr, hfit⟩ := hs.patch p₀ h₀
    refine ⟨by rw [hc]; exact huse, ⟨?_, ?_⟩, ?_, ?_⟩
    · rw [← htab.1, hd, ← hhalf, hb]
    · rw [← htab.2, ha, hb]
    · rw [← hreach, hr, hb]
    · rw [← hhalf, ← hreach, ← hrange]
      exact hfit
  · intro r hr
    rw [hr, Option.map_some] at hrepair
    obtain ⟨r₀, h₀, heq⟩ := Option.map_eq_some_iff.mp hrepair.symm
    simp only [Repair.frame, Prod.mk.injEq] at heq
    obtain ⟨htab, hint, hhalo, htx, hty, hlen⟩ := heq
    simp only [ValueIterator.table, Prod.mk.injEq] at htab
    obtain ⟨huse, ⟨hd, ha⟩, hh, hx, hy, hq⟩ := hs.repair r₀ h₀
    refine ⟨by rw [hc]; exact huse, ⟨?_, ?_⟩, ?_, ?_, ?_, ?_⟩
    · rw [← htab.1, hd, ← hint, ← hhalo, hb]
    · rw [← htab.2, ha, hb]
    · rw [← hhalo, ← hint, hb]
      exact hh
    · rw [← htx, ← hint, hb]
      exact hx
    · rw [← hty, ← hint, hb]
      exact hy
    · rw [← hlen, hq, htx, hty]
  · intro o ho
    rw [ho, Option.map_some] at hover
    obtain ⟨o₀, h₀, heq⟩ := Option.map_eq_some_iff.mp hover.symm
    rw [← heq, hs.overlay o₀ h₀, hb]

theorem localVi_frame {core core' : PlannerCore K} (h : core'.frame = core.frame) :
    core'.localVi.map (·.frame) = core.localVi.map (·.frame) := by
  simp only [frame, CoreFrame.mk.injEq] at h
  obtain ⟨_, _, hfield, hpatch, _⟩ := h
  have hpv : (core'.patch.bind fun p => p.hydratedAt.map fun _ => p.vi.frame) =
      core.patch.bind fun p => p.hydratedAt.map fun _ => p.vi.frame := by
    have hfun (c : PlannerCore K) : (c.patch.bind fun p => p.hydratedAt.map fun _ => p.vi.frame) =
        (c.patch.map Patch.frame).bind fun q => q.2.2.2.map fun _ => q.1 := by
      cases c.patch <;> rfl
    rw [hfun, hfun, hpatch]
  have hlocal (c : PlannerCore K) : c.localVi.map (·.frame) =
      (c.cached.map (·.field.frame)).bind fun q => q.elim some fun _ =>
        c.patch.bind fun p => p.hydratedAt.map fun _ => p.vi.frame := by
    unfold localVi
    rcases c.cached with _ | ⟨⟨l⟩ | ⟨f⟩, part⟩
    · rfl
    · rfl
    · cases hp : c.patch with
      | none => simp [GoalField.frame]
      | some p => cases hh : p.hydratedAt <;> simp [GoalField.frame, hh]
  rw [hlocal, hlocal, hfield, hpv]

theorem patchAt_congr {core core' : PlannerCore K} (h : core'.frame = core.frame) :
    core'.patchAt = core.patchAt := by
  have hpatch := congrArg CoreFrame.patch h
  have hfun (c : PlannerCore K) : c.patchAt = (c.patch.map Patch.frame).bind (·.2.2.2) := by
    unfold patchAt
    cases c.patch <;> rfl
  rw [hfun, hfun]
  exact congrArg (fun q => Option.bind q (·.2.2.2)) hpatch

theorem localOrigin_congr {core core' : PlannerCore K} (h : core'.frame = core.frame) :
    core'.localOrigin = core.localOrigin := by
  have hcfg : core'.cfg = core.cfg := congrArg CoreFrame.cfg h
  unfold localOrigin
  rw [hcfg, patchAt_congr h]

end

theorem onMap_congr {K : Type} {core core' : PlannerCore K} (h : core'.frame = core.frame) :
    core'.onMap = core.onMap := by
  have hb : core'.build = core.build := congrArg CoreFrame.build h
  unfold onMap
  rw [hb]

section
variable {K : Type} [Field K] [LinearOrder K]

theorem windowCells_congr {core core' : PlannerCore K} (h : core'.frame = core.frame) :
    core'.windowCells = core.windowCells := by
  have hl := localVi_frame h
  unfold windowCells
  rw [onMap_congr h, localOrigin_congr h]
  cases h' : core'.localVi with
  | none =>
    rw [h', Option.map_none] at hl
    rw [Option.map_eq_none_iff.mp hl.symm]
  | some l' =>
    rw [h', Option.map_some] at hl
    obtain ⟨l, hl₀, heq⟩ := Option.map_eq_some_iff.mp hl.symm
    simp only [hl₀, ValueIteratorLocal.windowRows_congr heq.symm]

end

section
variable {K : Type} (core : PlannerCore K)

@[simp] theorem frame_enqueueGlobal (b : Int × Int × Int × Int) :
    (core.enqueueGlobal b).frame = core.frame := by
  unfold enqueueGlobal
  cases hr : core.repair <;> simp [frame, hr]

@[simp] theorem frame_enqueueCell (c : Cell) : (core.enqueueCell c).frame = core.frame :=
  frame_enqueueGlobal core _

@[simp] theorem frame_enqueueCells (cs : List Cell) : (core.enqueueCells cs).frame = core.frame :=
  foldl_keeps frame frame_enqueueCell cs core

@[simp] theorem frame_queueCostIncreases (cs : List Cell) :
    (core.queueCostIncreases cs).frame = core.frame := by
  unfold queueCostIncreases
  split
  · rfl
  · simp only
    split <;> rfl

theorem frame_discard (p : Pos) (pt : Patch K) : (pt.discard p).frame = pt.frame := by
  unfold Patch.discard
  split
  · rfl
  · simp only
    split <;> rfl

@[simp] theorem frame_invalidatePolicyState (p : Pos) (a : Nat) :
    (core.invalidatePolicyState p a).1.frame = core.frame := by
  unfold invalidatePolicyState
  rcases hc : core.cached with _ | ⟨⟨l⟩ | ⟨f⟩, part⟩
  · rfl
  · simp only
    split
    · rfl
    · simp [frame, hc, GoalField.frame, ValueIteratorLocal.frame]
  · simp only
    split
    · rfl
    · have hpatch : (core.patch.map fun pt => pt.discard p).map Patch.frame =
          core.patch.map Patch.frame := by
        cases core.patch with
        | none => rfl
        | some pt => exact congrArg some (frame_discard p pt)
      simp [frame, hc, GoalField.frame, hpatch, CompactField.write]

@[simp] theorem frame_requeued (q : Pos) : (core.requeued q).frame = core.frame := by
  unfold requeued
  exact frame_enqueueCell _ _

@[simp] theorem frame_invalidatePredecessor (e : Pos × Nat) :
    (core.invalidatePredecessor e).frame = core.frame := by
  unfold invalidatePredecessor
  simp only
  split
  · rfl
  · split
    · rw [frame_requeued, frame_invalidatePolicyState]
    · exact frame_invalidatePolicyState _ _ _

theorem frame_invalidateStep {core core' : PlannerCore K} (h : core.invalidateStep = some core') :
    core'.frame = core.frame := by
  unfold invalidateStep at h
  split at h
  · cases h
  · cases h
    exact foldl_keeps frame frame_invalidatePredecessor _ _

@[simp] theorem frame_advanceInvalidations (budget : Nat) : ∀ core : PlannerCore K,
    (core.advanceInvalidations budget).1.frame = core.frame := by
  induction budget with
  | zero => exact fun _ => rfl
  | succ budget ih =>
    intro core
    unfold advanceInvalidations
    cases h : core.invalidateStep with
    | none => rfl
    | some core' => exact (ih core').trans (frame_invalidateStep h)

@[simp] theorem frame_settleGlobal : core.settleGlobal.1.frame = core.frame := by
  have hc : (core.cached.map (·.markComplete)).map (·.field.frame) =
      core.cached.map (·.field.frame) := by cases core.cached <;> rfl
  have hr : (core.repair.map fun r => if 0 < r.visits then r.settle else r).map (·.frame) =
      core.repair.map (·.frame) := by
    cases core.repair with
    | none => rfl
    | some r =>
      simp only [Option.map_some]
      split <;> rfl
  by_cases h : core.settled = true
  · simp only [settleGlobal, h, if_true, frame, hc, hr]
  · simp only [settleGlobal, h, Bool.false_eq_true, if_false, frame]

@[simp] theorem frame_seedSweepAll : core.seedSweepAll.frame = core.frame := by
  unfold seedSweepAll
  split <;> rfl

@[simp] theorem frame_seedSweepWindow : core.seedSweepWindow.frame = core.frame := by
  unfold seedSweepWindow
  split <;> rfl

theorem frame_setLocal {l l' : ValueIteratorLocal K} (hl : core.localVi = some l)
    (h : l'.frame = l.frame) : (core.setLocal l').frame = core.frame := by
  unfold localVi at hl
  unfold setLocal
  rcases hc : core.cached with _ | ⟨⟨l₀⟩ | ⟨f⟩, part⟩
  · rfl
  · simp only [hc, Option.some.injEq] at hl ⊢
    subst hl
    simp [frame, hc, GoalField.frame, h]
  · simp only [hc] at hl ⊢
    cases hp : core.patch with
    | none => rfl
    | some p =>
      simp only [hp] at hl ⊢
      split
      · obtain ⟨o, _, hvi⟩ := Option.map_eq_some_iff.mp hl
        simp only [frame, hp, hc, Option.map_some, Patch.frame, hvi, h]
      · rfl

end

section
variable {K : Type} [Field K] [LinearOrder K] [FloorRing K] (core : PlannerCore K)

@[simp] theorem frame_harvestPenalties : core.harvestPenalties.frame = core.frame := by
  unfold harvestPenalties
  split
  · next p ov hp ho =>
    split
    · rfl
    · have hdims : ∀ (o : PenaltyOverlay) (c : Cell) (v : Nat), (o.set c v).values.dims =
          o.values.dims := by
        intro o c v
        unfold PenaltyOverlay.set
        split <;> rfl
      simp only [frame, ho, Option.map_some]
      rw [foldl_keeps (fun o : PenaltyOverlay => o.values.dims) fun o c => hdims o _ _]
  · rfl

theorem dims_writeColumn (f : CompactField K) (c : Cell) (us : Nat → Nat × Int) :
    (f.writeColumn c us).sink.dims = f.sink.dims :=
  foldl_keeps (fun f : CompactField K => f.sink.dims)
    (f := fun f (it : Nat) => f.write ⟨c.1, c.2, it⟩ (us it)) (fun _ _ => rfl) _ f

theorem dims_commitStates (f : CompactField K) (base : ValueIterator) (p0 : Cell)
    (r : Int × Int × Int × Int) : (f.commitStates base p0 r).1.sink.dims = f.sink.dims := by
  have hcol : ∀ (f : CompactField K) (c : Cell), (f.commitColumn base p0 c).1.sink.dims =
      f.sink.dims := by
    intro f c
    unfold CompactField.commitColumn
    simp only
    split
    · rfl
    · split
      · exact dims_writeColumn _ _ _
      · rfl
  unfold CompactField.commitStates
  refine foldl_keeps (fun a : CompactField K × Option (Int × Int × Int × Int) => a.1.sink.dims)
    ?_ _ (f, none)
  intro a c
  simp only
  split
  · exact hcol _ _
  · exact hcol _ _

@[simp] theorem frame_commitWindowCell (p : Patch K) (p0 c : Cell) :
    (commitWindowCell p p0 core c).frame = core.frame := by
  unfold commitWindowCell
  split
  · next f part hc =>
    have hd := dims_commitStates f p.vi.base p0 (c.1, c.1, c.2, c.2)
    simp only
    split
    · next b r hb hr => simp [frame, hc, hr, GoalField.frame, hd]
    · simp [frame, hc, GoalField.frame, hd]
  · rfl

@[simp] theorem frame_commitWindow : core.commitWindow.frame = core.frame := by
  unfold commitWindow
  split
  · split
    · rfl
    · exact foldl_keeps frame (fun c x => frame_commitWindowCell c _ _ x) _ core
  · rfl

@[simp] theorem frame_refreshLocalBoundary : core.refreshLocalBoundary.frame = core.frame := by
  unfold refreshLocalBoundary
  split
  · next p f part hp hc =>
    split
    · rfl
    · next p0 h0 => simp [frame, hp, Patch.frame, ValueIteratorLocal.frame]
  · rfl

@[simp] theorem frame_setOwned (owned : List Cell) : (core.setOwned owned).frame = core.frame := by
  unfold setOwned
  split
  · simp only
    split
    · rfl
    · exact frame_enqueueCells core _
  · rfl

@[simp] theorem frame_releaseDeferred : core.releaseDeferred.frame = core.frame := by
  unfold releaseDeferred
  exact frame_enqueueCells _ _

@[simp] theorem frame_updateLocalOwnership : core.updateLocalOwnership.frame = core.frame := by
  unfold updateLocalOwnership
  rw [frame_releaseDeferred, frame_setOwned]

@[simp] theorem frame_claimLocal : core.claimLocal.1.frame = core.frame := by
  unfold claimLocal
  exact frame_updateLocalOwnership _

@[simp] theorem frame_releaseLocal (owner : Nat) : (core.releaseLocal owner).frame = core.frame := by
  unfold releaseLocal
  split
  · exact frame_updateLocalOwnership _
  · rfl

@[simp] theorem frame_restartGlobalCheck : core.restartGlobalCheck.1.frame = core.frame := by
  unfold restartGlobalCheck
  split
  · rfl
  · simp only
    split
    · next r hr => simp [frame, hr]
    · exact frame_seedSweepAll core

@[simp] theorem frame_invalidateLocalInputs (before : List (Bool × Nat × Nat)) :
    (core.invalidateLocalInputs before).frame = core.frame := by
  unfold invalidateLocalInputs
  split
  · rfl
  · simp only
    split
    · rfl
    · rw [frame_enqueueGlobal, frame_queueCostIncreases]
      rfl

theorem frame_mapLocal {f : ValueIteratorLocal K → ValueIteratorLocal K}
    (hf : ∀ l, (f l).frame = l.frame) : (core.mapLocal f).frame = core.frame := by
  unfold mapLocal
  cases hl : core.localVi with
  | none => rfl
  | some l => exact frame_setLocal core hl (hf l)

theorem frame_sense {f : ValueIteratorLocal K → ValueIteratorLocal K}
    (hf : ∀ l, (f l).frame = l.frame) : (core.sense f).frame = core.frame := by
  unfold sense
  rw [frame_invalidateLocalInputs, frame_harvestPenalties, frame_mapLocal core hf]

@[simp] theorem frame_observeScan [Trig K] (scan : LaserScan K) (pose : PoseView K) (shift : Nat) :
    (core.observeScan scan pose shift).frame = core.frame :=
  frame_sense core fun _ => (ValueIteratorLocal.frame_setLocalCostAttenuated _ _ _ _ _ _).trans rfl

@[simp] theorem frame_inflateBySigma (sigma : K) :
    (core.inflateBySigma sigma).frame = core.frame := by
  unfold inflateBySigma
  simp only
  split
  · rfl
  · exact frame_sense core fun l => ValueIteratorLocal.frame_inflateBySigma l _

theorem table_refineColumns (l : ValueIteratorLocal K) (xs : List Int) :
    ∀ (ticks : Nat) (r : ValueIterator × Nat),
      (l.refineColumns xs ticks r).1.1.table = r.1.table := by
  induction xs with
  | nil => exact fun _ _ => rfl
  | cons x xs ih =>
    intro ticks r
    cases ticks with
    | zero => rfl
    | succ ticks =>
      rw [ValueIteratorLocal.refineColumns, ih]
      exact ValueIterator.table_passOver _ _ _

theorem frame_refinePass (l : ValueIteratorLocal K) (ticks : Nat) :
    (l.refinePass ticks).1.frame = l.frame := by
  apply ValueIteratorLocal.frame_withBase
  refine (foldl_keeps ValueIterator.table (fun v e => ValueIterator.table_setState v _ _) _ _).trans
    ?_
  rw [table_refineColumns]
  exact foldl_keeps ValueIterator.table (fun v e => ValueIterator.table_setState v _ _) _ _

@[simp] theorem frame_passWindow (ticks : Nat) :
    (core.passWindow ticks).1.frame = core.frame := by
  unfold passWindow
  cases hl : core.localVi with
  | none => rfl
  | some l => exact frame_setLocal core hl (frame_refinePass l ticks)

@[simp] theorem frame_notePass (delta : Nat) : (core.notePass delta).frame = core.frame := by
  unfold notePass
  split
  · rfl
  · simp only
    split
    · rfl
    · exact frame_seedSweepWindow _

@[simp] theorem frame_refineRound (ticks : Nat) :
    (core.refineRound ticks).1.frame = core.frame := by
  have hnote := (frame_notePass (core.passWindow ticks).1 (core.passWindow ticks).2.1).trans
    (frame_passWindow core ticks)
  unfold refineRound
  simp only
  split
  · split
    · exact (frame_commitWindow _).trans hnote
    · exact (frame_commitWindow _).trans hnote
  · exact hnote

@[simp] theorem frame_refineRounds (fuel : Nat) : ∀ (ticks : Nat) (core : PlannerCore K),
    (refineRounds fuel ticks core).1.frame = core.frame := by
  induction fuel with
  | zero => exact fun _ _ => rfl
  | succ fuel ih =>
    intro ticks core
    unfold refineRounds
    simp only
    split
    · exact frame_refineRound core ticks
    · rw [ih, frame_refineRound]

@[simp] theorem frame_drainInvalidations (ticks : Nat) : ∀ core : PlannerCore K,
    (drainInvalidations ticks core).1.frame = core.frame := by
  induction ticks with
  | zero =>
    intro core
    unfold drainInvalidations
    simp only
    split <;> exact frame_advanceInvalidations _ _
  | succ ticks ih =>
    intro core
    unfold drainInvalidations
    simp only
    split
    · exact frame_advanceInvalidations _ _
    · rw [ih, frame_advanceInvalidations]

@[simp] theorem frame_refineFor (ticks : Nat) : (core.refineFor ticks).1.frame = core.frame := by
  unfold refineFor
  simp only
  split
  · exact frame_drainInvalidations _ _
  · rw [frame_refineRounds, frame_drainInvalidations]

@[simp] theorem frame_draftTile : core.draftTile.1.frame = core.frame := by
  unfold draftTile
  split
  · rfl
  · next r hr =>
    split
    · exact frame_settleGlobal core
    · next t queue hq =>
      simp only
      split
      · simp [frame, hr, Repair.frame, hydrateStates]
      · simp [frame, hr, Repair.frame]

theorem frame_draftBatch {maxStates : Nat} {r : PlannerCore K × Option Draft}
    (h : core.draftBatch maxStates = some r) : r.1.frame = core.frame := by
  unfold draftBatch at h
  split at h
  · obtain ⟨swr, _, h⟩ := Option.bind_eq_some_iff.mp h
    obtain ⟨sw, _, h⟩ := Option.map_eq_some_iff.mp h
    split at h
    · rw [← h]
      exact frame_settleGlobal _
    · rw [← h]
      rfl
  · cases h
    rfl

@[simp] theorem frame_checkOut (d : Draft) : (core.checkOut d).1.frame = core.frame := rfl

theorem frame_prepareGlobalJob {maxStates : Nat} {r : PlannerCore K × Option GlobalJob}
    (h : core.prepareGlobalJob maxStates = some r) : r.1.frame = core.frame := by
  unfold prepareGlobalJob at h
  simp only at h
  have hadv := frame_advanceInvalidations (min (max maxStates 1) 5000) core
  split at h
  · cases h
    exact hadv
  · split at h
    · cases h
      exact hadv
    · obtain ⟨d, hd, h⟩ := Option.map_eq_some_iff.mp h
      have hframe : d.1.frame = core.frame := by
        split at hd
        · cases hd
          rw [frame_draftTile, hadv]
        · rw [frame_draftBatch _ hd, hadv]
      split at h
      · rw [← h]
        exact hframe
      · rw [← h]
        exact hframe

theorem frame_publishCell (job : GlobalJob) (acc : PlannerCore K × List Cell × List Cell)
    (c : Cell) : (publishCell job acc c).1.frame = acc.1.frame := by
  unfold publishCell
  simp only
  split
  · split <;> rfl
  · split
    · rfl
    · split
      · rfl
      · next l part hc =>
        split
        · rfl
        · have htab := ValueIterator.table_writeColumn l.base (job.globalCell c) (job.vi.columnAt c)
          simp [frame, hc, GoalField.frame, ValueIteratorLocal.frame, htab]
      · next f part hc =>
        split
        · rfl
        · split
          · have hd := dims_writeColumn f (job.globalCell c) (CompactField.columnOf job.vi c)
            simp [frame, hc, GoalField.frame, hd]
          · rfl

@[simp] theorem frame_afterPublish (changed retry : List Cell) :
    (core.afterPublish changed retry).frame = core.frame := by
  unfold afterPublish
  simp only
  split
  · exact frame_enqueueCells _ _
  · rw [changeBoundary, frame_refreshLocalBoundary]
    exact frame_enqueueCells _ _

@[simp] theorem frame_commitGlobalJob (job : GlobalJob) :
    (core.commitGlobalJob job).1.frame = core.frame := by
  unfold commitGlobalJob
  split
  · simp only
    split
    · exact frame_enqueueCells _ _
    · rfl
  · simp only [frame_settleGlobal, frame_afterPublish]
    exact foldl_keeps (fun a : PlannerCore K × List Cell × List Cell => a.1.frame)
      (frame_publishCell job) _ _

@[simp] theorem frame_prepareLocalJob : core.prepareLocalJob.1.frame = core.frame := by
  have hadv := frame_advanceInvalidations 512 core
  unfold prepareLocalJob
  simp only
  split
  · exact hadv
  · split
    · split
      · exact hadv
      · exact hadv
    · exact hadv

theorem table_writeLocal (job : LocalJob) (p0 : Cell) (base : ValueIterator) :
    (writeLocal job p0 base).1.table = base.table :=
  foldl_keeps (fun a : ValueIterator × List Cell => a.1.table)
    (fun a _ => ValueIterator.table_writeColumn a.1 _ _) _ (base, [])

@[simp] theorem frame_commitLocalJob (job : LocalJob) :
    (core.commitLocalJob job).1.frame = core.frame := by
  unfold commitLocalJob
  split
  · simp only
    split <;> rfl
  · simp only
    split
    · rfl
    · split
      · rfl
      · next l hl =>
        simp only [frame_settleGlobal]
        have hset := frame_setLocal _ hl (ValueIteratorLocal.frame_withBase
          (table_writeLocal job (core.patchAt.getD (0, 0)) l.base))
        have hwin (c c' : PlannerCore K) (h : c'.frame = c.frame) (b : Prop) [Decidable b] :
            (if b then c'.certifyLocal else c').frame = c.frame := by
          split
          · exact h
          · exact h
        apply hwin core
        have hpub (c : PlannerCore K) (cs : List Cell) : (if c.cfg.useCompact = true then
            c.commitWindow else c.enqueueCells cs).frame = c.frame := by
          split
          · exact frame_commitWindow c
          · exact frame_enqueueCells c cs
        exact (hpub _ _).trans hset

end

end PlannerCore

end ValueIteration
