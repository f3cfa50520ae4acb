import ValueIteration.Lib.Retraction
import ValueIteration.Planner.Compact

/-!
# Invalidating the policies that led into a raised cost

A raised column is queued with all its headings; popping a state clears every
predecessor whose stored action leads into it and queues that predecessor in
turn. The cleared actions double as the visited set.
-/

set_option autoImplicit false

namespace ValueIteration

variable {K : Type}

/-- `repair_values`: a discarded policy's value is not calculated with. -/
def State.repaired (s : State) : State :=
  if s.policyInvalidated then { s with totalCost := maxCost } else s

def ValueIterator.repairValues (vi : ValueIterator) : ValueIterator :=
  ⟨vi.states.map State.repaired, vi.actions, vi.wellFormed⟩

/-- The reverse transition table: under each heading, who leads to it. -/
def reverseTable (actions : List Action) (nt : Nat) : List (List Predecessor) :=
  (List.range nt).map fun (h : Nat) =>
    actions.zipIdx.flatMap fun a =>
      a.1.stateTransitions.zipIdx.flatMap fun row =>
        (row.1.filter fun t => decide (0 < t.prob) && (t.dit % (nt : Int) == (h : Int))).map
          fun t => ⟨t.dix, t.diy, row.2, a.2⟩

/-- The copy of a cleared action in the hydrated footprint, the frozen halo included. -/
def Patch.discard (p : Pos) (pt : Patch K) : Patch K :=
  match pt.hydratedAt with
  | none => pt
  | some o =>
    let q : Pos := ⟨p.ix - o.1, p.iy - o.2, p.it⟩
    if pt.vi.base.inMapArea q.ix q.iy then
      let base := pt.vi.base.setState q { pt.vi.base.stateAt q with optimalAction := none }
      { pt with vi := { pt.vi with base := base } }
    else pt

namespace PlannerCore

variable (core : PlannerCore K)

def queueCostIncreases (cells : List Cell) : PlannerCore K :=
  if cells.isEmpty ∨ !core.cfg.globalSweep then core else
  let inv := core.global.invalidation
  let reverse? :=
    if inv.reverse.isEmpty then
      core.localVi.map fun l => reverseTable l.base.actions l.base.dims.nt
    else some inv.reverse
  match reverse? with
  | none => core
  | some reverse =>
    let nt := reverse.length
    let states := cells.flatMap fun c => (List.range nt).map fun (t : Nat) => (⟨c.1, c.2, t⟩ : Pos)
    { core with global := { core.global with
        invalidation := ⟨reverse, inv.pending ++ states⟩
        epoch := core.global.epoch + 1
        boundaryRevision := core.global.boundaryRevision + 1
        certified := false } }

/-- `invalidate_policy_state`: clear the action if it is still the one that led here. -/
def invalidatePolicyState (p : Pos) (action : Nat) : PlannerCore K × Bool :=
  match core.cached with
  | none => (core, false)
  | some ⟨.dense l, part⟩ =>
    let s := l.base.stateAt p
    if !s.free || s.finalState || s.optimalAction != some action then (core, false) else
    let base := l.base.setState p { s with optimalAction := none }
    ({ core with cached := some ⟨.dense { l with base := base }, part⟩ }, true)
  | some ⟨.compact f, part⟩ =>
    let u := f.read p
    if u.1 == 0 || u.2 != (action : Int) then (core, false) else
    ({ core with
      cached := some ⟨.compact (f.write p (u.1, -1)), part⟩
      patch := core.patch.map fun pt => pt.discard p }, true)

/-- Who may lead to a state, with the action that does, on the map or not. -/
def preds (p : Pos) : List (Pos × Nat) :=
  (core.global.invalidation.reverse.getD p.it.toNat []).map fun e =>
    (⟨p.ix - e.dx, p.iy - e.dy, e.theta⟩, e.action)

/-- Queue a cleared state, and its column for repair. -/
def requeued (q : Pos) : PlannerCore K :=
  let inv := core.global.invalidation
  let global := { core.global with invalidation := { inv with pending := inv.pending ++ [q] } }
  { core with global := global }.enqueueCell (q.ix, q.iy)

/-- One predecessor of a popped state. -/
def invalidatePredecessor (core : PlannerCore K) (e : Pos × Nat) : PlannerCore K :=
  let q := e.1
  if q.ix < 0 ∨ q.iy < 0 ∨ core.build.grid.width ≤ q.ix ∨ core.build.grid.height ≤ q.iy then core
  else
    let r := core.invalidatePolicyState q e.2
    if r.2 then r.1.requeued q else r.1

/-- One popped state of `advance_invalidations`. -/
def invalidateStep : Option (PlannerCore K) :=
  match core.global.invalidation.pending with
  | [] => none
  | p :: rest =>
    let inv := { core.global.invalidation with pending := rest }
    let popped := { core with global := { core.global with invalidation := inv } }
    some ((core.preds p).foldl invalidatePredecessor popped)

/-- `advance_invalidations`: true once nothing is pending. -/
def advanceInvalidations : Nat → PlannerCore K → PlannerCore K × Bool
  | 0, core => (core, core.global.invalidation.pending.isEmpty)
  | budget + 1, core =>
    match core.invalidateStep with
    | none => (core, true)
    | some core' => advanceInvalidations budget core'

/-- Run `advance_invalidations` with one budget after the other, until it returns true. -/
def advanceAll : List Nat → PlannerCore K → PlannerCore K × Bool
  | [], core => (core, false)
  | budget :: budgets, core =>
    let r := core.advanceInvalidations budget
    if r.2 then r else advanceAll budgets r.1

/-- The states one pop clears are the ones it queues. -/
def clearedBy (core' : PlannerCore K) : List Pos :=
  core'.global.invalidation.pending.drop (core.global.invalidation.pending.length - 1)

/-- The states cleared by one call, in order. -/
def clearLog : Nat → PlannerCore K → List Pos
  | 0, _ => []
  | budget + 1, core =>
    match core.invalidateStep with
    | none => []
    | some core' => core.clearedBy core' ++ clearLog budget core'

/-- The states cleared by a sequence of calls. -/
def clearLogAll : List Nat → PlannerCore K → List Pos
  | [], _ => []
  | budget :: budgets, core =>
    let r := core.advanceInvalidations budget
    clearLog budget core ++ if r.2 then [] else clearLogAll budgets r.1

/-- Value and action of a state of the shared field. -/
def entry (p : Pos) : Nat × Option Nat :=
  match core.cached with
  | none => (maxCost, none)
  | some ⟨.dense l, _⟩ => ((l.base.stateAt p).totalCost, (l.base.stateAt p).optimalAction)
  | some ⟨.compact f, _⟩ => ((f.read p).1, stateAction (f.read p).2)

/-- Free and not final; the goals of a compact field are its zero values. -/
def movable (p : Pos) : Bool :=
  match core.cached with
  | none => false
  | some ⟨.dense l, _⟩ => (l.base.stateAt p).free && !(l.base.stateAt p).finalState
  | some ⟨.compact f, _⟩ => (f.read p).1 != 0

/-- The stored action of `s` has `t` as an outcome of positive probability. -/
def StoredOutcome (s t : Pos) : Prop :=
  ∃ i a tr, (core.entry s).2 = some i ∧ core.build.actions[i]? = some a ∧ tr ∈ a.row s.it ∧
    0 < tr.prob ∧ t = ⟨s.ix + tr.dix, s.iy + tr.diy,
      (tr.dit + core.build.thetaCellNum).tmod core.build.thetaCellNum⟩

/-- The least set of free states that are not final and whose stored action leads
into a raised column or into the set. -/
inductive Obsolete (cells : List Cell) : Pos → Prop where
  | raised {s t : Pos} : core.mapDims.Contains s → core.movable s = true →
      core.StoredOutcome s t → (t.ix, t.iy) ∈ cells → Obsolete cells s
  | follows {s t : Pos} : core.mapDims.Contains s → core.movable s = true →
      core.StoredOutcome s t → Obsolete cells t → Obsolete cells s

/-- The choice that an invalidation can withdraw from a state. -/
def standing (p : Pos) : Option Nat :=
  if core.mapDims.Contains p ∧ core.movable p = true then (core.entry p).2 else none

variable {core}

theorem stateAction_eq_some {a : Int} {i : Nat} : stateAction a = some i ↔ a = i := by
  unfold stateAction
  split
  · simp only [Option.some.injEq]
    omega
  · constructor
    · intro h
      cases h
    · intro h
      omega

/-- What a clearing does not touch. -/
structure OnlyField (core core' : PlannerCore K) : Prop where
  build : core'.build = core.build
  cfg : core'.cfg = core.cfg
  penalty : core'.penalty = core.penalty
  repair : core'.repair = core.repair
  sweep : core'.sweep = core.sweep
  global : core'.global = core.global

/-- The spec of one clearing test. -/
structure Cleared (core core' : PlannerCore K) (p : Pos) : Prop where
  only : OnlyField core core'
  shaped : core'.Shaped
  entry : ∀ q, core.mapDims.Contains q →
    core'.entry q = if q = p then ((core.entry q).1, none) else core.entry q
  movable : ∀ q, core.mapDims.Contains q → core'.movable q = core.movable q

theorem invalidatePolicyState_of_ne {p : Pos} {a : Nat} (hp : core.mapDims.Contains p)
    (h : core.standing p ≠ some a) : core.invalidatePolicyState p a = (core, false) := by
  unfold invalidatePolicyState
  unfold standing entry movable at h
  rcases hc : core.cached with _ | ⟨⟨l⟩ | ⟨f⟩, part⟩
  · rfl
  · simp only [hc] at h ⊢
    apply if_pos
    by_contra hnot
    apply h
    simp only [Bool.or_eq_true, bne_iff_ne, ne_eq, not_or, not_not, Bool.not_eq_true',
      Bool.not_eq_false, Bool.not_eq_true] at hnot
    rw [if_pos ⟨hp, by simp [hnot.1.1, hnot.1.2]⟩]
    exact hnot.2
  · simp only [hc] at h ⊢
    apply if_pos
    by_contra hnot
    apply h
    simp only [Bool.or_eq_true, beq_iff_eq, bne_iff_ne, ne_eq, not_or, not_not] at hnot
    rw [if_pos ⟨hp, by simpa using hnot.1⟩]
    exact stateAction_eq_some.mpr hnot.2

theorem discard_shape {pt : Patch K} (h : core.build.PatchShape pt) (p : Pos) :
    core.build.PatchShape (pt.discard p) := by
  unfold Patch.discard
  split
  · exact h
  · simp only
    split
    · exact ⟨h.table, h.reach, h.fits⟩
    · exact h

theorem invalidatePolicyState_of_eq {p : Pos} {a : Nat} (hs : core.Shaped)
    (h : core.standing p = some a) : (core.invalidatePolicyState p a).2 = true ∧
      Cleared core (core.invalidatePolicyState p a).1 p := by
  unfold standing at h
  split at h
  · next hp =>
    obtain ⟨hp, hmov⟩ := hp
    unfold entry at h
    unfold movable at hmov
    rcases hc : core.cached with _ | ⟨⟨l⟩ | ⟨f⟩, part⟩
    · simp only [hc] at hmov
      cases hmov
    · simp only [hc, Bool.and_eq_true, Bool.not_eq_true'] at h hmov
      have hd := (hs.dense l part hc).2
      have hget : ∀ q, core.mapDims.Contains q → ∀ s, (l.base.setState p s).stateAt q =
          if q = p then s else l.base.stateAt q := by
        intro q hq s
        exact ValueIterator.stateAt_setState (by rw [hd.1]; exact hp) (by rw [hd.1]; exact hq) s
      have hr : core.invalidatePolicyState p a = ({ core with cached := some ⟨.dense { l with
          base := l.base.setState p { l.base.stateAt p with optimalAction := none } }, part⟩ },
          true) := by
        simp [invalidatePolicyState, hc, hmov.1, hmov.2, h]
      rw [hr]
      refine ⟨rfl, ⟨⟨rfl, rfl, rfl, rfl, rfl, rfl⟩, ?_, ?_, ?_⟩⟩
      · refine ⟨?_, ?_, hs.patch, hs.repair, hs.overlay⟩
        · intro l' part' heq
          cases heq
          exact ⟨(hs.dense l part hc).1, hd⟩
        · intro f' part' heq
          cases heq
      · intro q hq
        simp only [entry, hc, hget q hq]
        split <;> rename_i hqp
        · rw [hqp]
        · rfl
      · intro q hq
        simp only [movable, hc, hget q hq]
        split <;> rename_i hqp
        · rw [hqp]
        · rfl
    · simp only [hc] at h hmov
      have hact := stateAction_eq_some.mp h
      obtain ⟨hcomp, hd⟩ := hs.compact f part hc
      have hget : ∀ q, core.mapDims.Contains q → (f.write p ((f.read p).1, -1)).read q =
          if q = p then ((f.read p).1, -1) else f.read q := by
        intro q hq
        exact Grid.get_set (by rw [hd]; exact hp) (by rw [hd]; exact hq) _
      have hr : core.invalidatePolicyState p a = ({ core with
          cached := some ⟨.compact (f.write p ((f.read p).1, -1)), part⟩
          patch := core.patch.map fun pt => pt.discard p }, true) := by
        have hne : (f.read p).1 ≠ 0 := by simpa using hmov
        simp [invalidatePolicyState, hc, hne, hact]
      rw [hr]
      refine ⟨rfl, ⟨⟨rfl, rfl, rfl, rfl, rfl, rfl⟩, ?_, ?_, ?_⟩⟩
      · refine ⟨?_, ?_, ?_, hs.repair, hs.overlay⟩
        · intro l' part' heq
          cases heq
        · intro f' part' heq
          cases heq
          exact ⟨hcomp, hd⟩
        · intro pt' heq
          obtain ⟨pt, hpt, rfl⟩ := Option.map_eq_some_iff.mp heq
          exact ⟨(hs.patch pt hpt).1, discard_shape (hs.patch pt hpt).2 p⟩
      · intro q hq
        simp only [entry, hc, hget q hq]
        split <;> rename_i hqp
        · rw [hqp]
          rfl
        · rfl
      · intro q hq
        simp only [movable, hc, hget q hq]
        split <;> rename_i hqp
        · rw [hqp]
        · rfl
  · cases h

theorem entry_congr {c c' : PlannerCore K} (h : c'.cached = c.cached) : c'.entry = c.entry := by
  unfold entry
  rw [h]

theorem movable_congr {c c' : PlannerCore K} (h : c'.cached = c.cached) :
    c'.movable = c.movable := by
  unfold movable
  rw [h]

theorem standing_of_not_contains {q : Pos} (h : ¬ core.mapDims.Contains q) :
    core.standing q = none :=
  if_neg fun hn => h hn.1

/-- The core does what the worklist machine does, and the machine's log says which
states have lost their action since `core₀`. -/
structure Mirrors (core₀ core : PlannerCore K) (m : Retraction.Machine Pos Nat) : Prop where
  shaped : core.Shaped
  build : core.build = core₀.build
  cfg : core.cfg = core₀.cfg
  reverse : core.global.invalidation.reverse = core₀.global.invalidation.reverse
  pending : core.global.invalidation.pending = m.pending
  standing : ∀ q, core.standing q = m.choice q
  entry : ∀ q, core₀.mapDims.Contains q →
    core.entry q = if q ∈ m.log then ((core₀.entry q).1, none) else core₀.entry q
  movable : ∀ q, core₀.mapDims.Contains q → core.movable q = core₀.movable q

theorem Mirrors.cleared {core₀ r : PlannerCore K} {m : Retraction.Machine Pos Nat}
    (h : Mirrors core₀ core m) {q : Pos} (hq : core₀.mapDims.Contains q)
    (hclr : Cleared core r q) : Mirrors core₀ (r.requeued q)
      ⟨Function.update m.choice q none, m.pending ++ [q], m.log ++ [q]⟩ := by
  have hdims : core.mapDims = core₀.mapDims := congrArg BuildParams.mapDims h.build
  have hentry : (r.requeued q).entry = r.entry :=
    entry_congr (by rw [requeued, enqueueCell, cached_enqueueGlobal])
  have hmovable : (r.requeued q).movable = r.movable :=
    movable_congr (by rw [requeued, enqueueCell, cached_enqueueGlobal])
  have hbuild : (r.requeued q).build = core₀.build := by
    rw [requeued, enqueueCell, build_enqueueGlobal]
    exact hclr.only.build.trans h.build
  refine ⟨?_, hbuild, ?_, ?_, ?_, ?_, ?_, ?_⟩
  · apply Shaped.enqueueGlobal
    exact ⟨hclr.shaped.dense, hclr.shaped.compact, hclr.shaped.patch, hclr.shaped.repair,
      hclr.shaped.overlay⟩
  · rw [requeued, enqueueCell, cfg_enqueueGlobal]
    exact hclr.only.cfg.trans h.cfg
  · rw [requeued, enqueueCell, global_enqueueGlobal, ← h.reverse, ← hclr.only.global]
  · rw [requeued, enqueueCell, global_enqueueGlobal, ← h.pending, ← hclr.only.global]
  · intro x
    unfold PlannerCore.standing
    rw [hentry, hmovable, mapDims, hbuild]
    simp only
    by_cases hxq : x = q
    · rw [hxq, Function.update_self, hclr.entry q (hdims ▸ hq), if_pos rfl]
      split <;> rfl
    · rw [Function.update_of_ne hxq, ← h.standing, PlannerCore.standing, mapDims, h.build]
      by_cases hx : core.mapDims.Contains x
      · rw [hclr.movable x hx, hclr.entry x hx, if_neg hxq]
      · rw [hdims] at hx
        rw [if_neg fun hn => hx hn.1, if_neg fun hn => hx hn.1]
  · intro x hx
    rw [hentry, hclr.entry x (hdims ▸ hx)]
    by_cases hxq : x = q
    · rw [if_pos hxq, if_pos (List.mem_append.mpr (Or.inr (List.mem_singleton.mpr hxq))), hxq,
        h.entry q hq]
      split <;> rfl
    · rw [if_neg hxq, h.entry x hx]
      simp only [List.mem_append, List.mem_singleton, hxq, or_false]
  · intro x hx
    rw [hmovable, hclr.movable x (hdims ▸ hx)]
    exact h.movable x hx

theorem Mirrors.visit {core₀ : PlannerCore K} {m : Retraction.Machine Pos Nat}
    (h : Mirrors core₀ core m) {q : Pos} {a : Nat}
    (hth : 0 ≤ q.it ∧ q.it < core₀.build.thetaCellNum) :
    Mirrors core₀ (core.invalidatePredecessor (q, a)) (Retraction.visit m (q, a)) := by
  have hdims : core.mapDims = core₀.mapDims := congrArg BuildParams.mapDims h.build
  unfold invalidatePredecessor
  simp only
  by_cases hoff : q.ix < 0 ∨ q.iy < 0 ∨ (core.build.grid.width : Int) ≤ q.ix ∨
      (core.build.grid.height : Int) ≤ q.iy
  · rw [if_pos hoff, Retraction.visit, if_neg]
    · exact h
    · rw [← h.standing, standing_of_not_contains]
      · exact nofun
      · intro hcon
        obtain ⟨⟨h1, h2⟩, ⟨h3, h4⟩, _⟩ : core.mapDims.Contains q := hcon
        change q.ix < (core.build.grid.width : Int) at h2
        change q.iy < (core.build.grid.height : Int) at h4
        omega
  · rw [if_neg hoff]
    have hcon : core.mapDims.Contains q := by
      rw [h.build] at hoff
      simp only [Dims.Contains, mapDims, BuildParams.mapDims, h.build]
      omega
    by_cases hst : core.standing q = some a
    · obtain ⟨htrue, hclr⟩ := invalidatePolicyState_of_eq h.shaped hst
      rw [if_pos htrue, Retraction.visit, if_pos (by rw [← h.standing]; exact hst)]
      generalize (core.invalidatePolicyState q a).1 = r at hclr ⊢
      exact h.cleared (hdims ▸ hcon) hclr
    · rw [invalidatePolicyState_of_ne hcon hst, if_neg Bool.false_ne_true, Retraction.visit,
        if_neg (by rw [← h.standing]; exact hst)]
      exact h

/-- The headings of all predecessors are headings of the table. -/
def ThetasOk (reverse : List (List Predecessor)) (nt : Nat) : Prop :=
  ∀ row ∈ reverse, ∀ e ∈ row, 0 ≤ e.theta ∧ e.theta < nt

theorem preds_eq {core₀ : PlannerCore K}
    (h : core.global.invalidation.reverse = core₀.global.invalidation.reverse) :
    core.preds = core₀.preds := by
  unfold preds
  rw [h]

theorem ThetasOk.preds {nt : Nat} (h : ThetasOk core.global.invalidation.reverse nt) {p : Pos}
    {e : Pos × Nat} (he : e ∈ core.preds p) : 0 ≤ e.1.it ∧ e.1.it < nt := by
  obtain ⟨x, hx, rfl⟩ := List.mem_map.mp he
  rw [List.getD_eq_getElem?_getD] at hx
  cases hr : core.global.invalidation.reverse[p.it.toNat]? with
  | none =>
    rw [hr] at hx
    cases hx
  | some row =>
    rw [hr] at hx
    exact h row (List.mem_of_getElem? hr) x hx

theorem Mirrors.foldl {core₀ : PlannerCore K} (es : List (Pos × Nat)) :
    ∀ {core : PlannerCore K} {m : Retraction.Machine Pos Nat}, Mirrors core₀ core m →
      (∀ e ∈ es, 0 ≤ e.1.it ∧ e.1.it < core₀.build.thetaCellNum) →
      Mirrors core₀ (es.foldl invalidatePredecessor core) (es.foldl Retraction.visit m) := by
  induction es with
  | nil => intro core m h _; exact h
  | cons e es ih =>
    intro core m h hes
    exact ih (h.visit (hes e List.mem_cons_self)) fun e' he' => hes e' (List.mem_cons_of_mem _ he')

/-- Step lemma: a pop of the core is a pop of the machine. -/
theorem Mirrors.step {core₀ : PlannerCore K} {m : Retraction.Machine Pos Nat}
    (hok : ThetasOk core₀.global.invalidation.reverse core₀.build.thetaCellNum)
    (h : Mirrors core₀ core m) :
    (core.invalidateStep = none ∧ m.pending = []) ∨
      ∃ core' m', core.invalidateStep = some core' ∧
        Retraction.step core₀.preds m = some m' ∧ Mirrors core₀ core' m' ∧
        m'.log = m.log ++ core.clearedBy core' := by
  cases hp : m.pending with
  | nil =>
    left
    refine ⟨?_, rfl⟩
    unfold invalidateStep
    rw [h.pending, hp]
  | cons p rest =>
    right
    have hpend := h.pending
    rw [hp] at hpend
    let inv := { core.global.invalidation with pending := rest }
    let popped := { core with global := { core.global with invalidation := inv } }
    have hpop : Mirrors core₀ popped { m with pending := rest } :=
      ⟨⟨h.shaped.dense, h.shaped.compact, h.shaped.patch, h.shaped.repair, h.shaped.overlay⟩,
        h.build, h.cfg, h.reverse, rfl, h.standing, h.entry, h.movable⟩
    have hfold := hpop.foldl (core₀.preds p) fun e he => hok.preds he
    obtain ⟨new, hnp, hnl⟩ := Retraction.foldl_visit_log (core₀.preds p) { m with pending := rest }
    refine ⟨_, (core₀.preds p).foldl Retraction.visit { m with pending := rest }, ?_, ?_, hfold, ?_⟩
    · unfold invalidateStep
      rw [hpend]
      simp only [preds_eq h.reverse]
      rfl
    · unfold Retraction.step
      rw [hp]
    · rw [hnl, clearedBy, hfold.pending, hnp, hpend]
      simp only [List.length_cons, Nat.add_sub_cancel, List.drop_left]

/-- Run lemma of one call. -/
theorem Mirrors.advance {core₀ : PlannerCore K} {C : Pos → Prop}
    (hok : ThetasOk core₀.global.invalidation.reverse core₀.build.thetaCellNum) {nodes : Finset Pos}
    (budget : Nat) : ∀ {core : PlannerCore K} {m : Retraction.Machine Pos Nat},
      Mirrors core₀ core m → Retraction.Inv core₀.preds core₀.standing C m →
      (∀ q, (m.choice q).isSome = true → q ∈ nodes) →
      ∃ m', Mirrors core₀ (core.advanceInvalidations budget).1 m' ∧
        Retraction.Inv core₀.preds core₀.standing C m' ∧
        (∀ q, (m'.choice q).isSome = true → q ∈ nodes) ∧
        m'.log = m.log ++ core.clearLog budget ∧
        ((core.advanceInvalidations budget).2 = true → m'.pending = []) ∧
        ((core.advanceInvalidations budget).2 = false →
          Retraction.potential nodes m' + budget ≤ Retraction.potential nodes m) := by
  induction budget with
  | zero =>
    intro core m h hinv hnodes
    refine ⟨m, h, hinv, hnodes, (List.append_nil _).symm, ?_, fun _ => le_refl _⟩
    intro hend
    rw [← h.pending]
    exact List.isEmpty_iff.mp hend
  | succ budget ih =>
    intro core m h hinv hnodes
    rcases h.step hok with ⟨hnone, hempty⟩ | ⟨core', m', hsome, hm, h', hlog⟩
    · refine ⟨m, ?_, hinv, hnodes, ?_, fun _ => hempty, ?_⟩
      · rw [advanceInvalidations, hnone]
        exact h
      · rw [clearLog, hnone, List.append_nil]
      · rw [advanceInvalidations, hnone]
        exact nofun
    · obtain ⟨hpot, hnodes'⟩ := Retraction.potential_step hnodes hm
      obtain ⟨m'', h'', hinv'', hn'', hlog'', hend, hleft⟩ := ih h' (hinv.step hm) hnodes'
      have hadv : core.advanceInvalidations (budget + 1) = core'.advanceInvalidations budget := by
        rw [advanceInvalidations, hsome]
      rw [hadv]
      refine ⟨m'', h'', hinv'', hn'', ?_, hend, ?_⟩
      · rw [hlog'', hlog, clearLog, hsome, List.append_assoc]
      · intro hf
        have := hleft hf
        omega

/-- Run lemma of a sequence of calls. -/
theorem Mirrors.advanceAll {core₀ : PlannerCore K} {C : Pos → Prop}
    (hok : ThetasOk core₀.global.invalidation.reverse core₀.build.thetaCellNum) {nodes : Finset Pos}
    (budgets : List Nat) : ∀ {core : PlannerCore K} {m : Retraction.Machine Pos Nat},
      Mirrors core₀ core m → Retraction.Inv core₀.preds core₀.standing C m →
      (∀ q, (m.choice q).isSome = true → q ∈ nodes) → (∀ b ∈ budgets, 0 < b) →
      (Retraction.potential nodes m < budgets.length → (core.advanceAll budgets).2 = true) ∧
      ((core.advanceAll budgets).2 = true → ∃ m', Mirrors core₀ (core.advanceAll budgets).1 m' ∧
        Retraction.Inv core₀.preds core₀.standing C m' ∧ m'.pending = [] ∧
        m'.log = m.log ++ core.clearLogAll budgets) := by
  induction budgets with
  | nil =>
    intro core m _ _ _ _
    exact ⟨fun hlt => (by simp at hlt), nofun⟩
  | cons b budgets ih =>
    intro core m h hinv hnodes hpos
    obtain ⟨m', h', hinv', hn', hlog, hend, hleft⟩ := h.advance hok b hinv hnodes
    have hb := hpos b List.mem_cons_self
    cases hr : (core.advanceInvalidations b).2 with
    | true =>
      have hall : core.advanceAll (b :: budgets) = core.advanceInvalidations b := by
        rw [PlannerCore.advanceAll]
        simp only [hr, if_true]
      rw [hall, hr]
      refine ⟨fun _ => rfl, fun _ => ⟨m', h', hinv', hend hr, ?_⟩⟩
      rw [hlog, clearLogAll]
      simp only [hr, if_true, List.append_nil]
    | false =>
      have hall : core.advanceAll (b :: budgets) =
          (core.advanceInvalidations b).1.advanceAll budgets := by
        rw [PlannerCore.advanceAll]
        simp only [hr, Bool.false_eq_true, if_false]
      obtain ⟨hfin, hres⟩ := ih h' hinv' hn' fun b' hb' => hpos b' (List.mem_cons_of_mem _ hb')
      rw [hall]
      have hpot := hleft hr
      refine ⟨?_, ?_⟩
      · intro hlt
        apply hfin
        rw [List.length_cons] at hlt
        omega
      · intro htrue
        obtain ⟨m'', h'', hinv'', hempty, hlog''⟩ := hres htrue
        refine ⟨m'', h'', hinv'', hempty, ?_⟩
        rw [hlog'', hlog, clearLogAll, List.append_assoc]
        simp only [hr, Bool.false_eq_true, if_false]

end PlannerCore

end ValueIteration
