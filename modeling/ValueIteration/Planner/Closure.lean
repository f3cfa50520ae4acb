import Mathlib.Data.Rat.Floor
import ValueIteration.Planner.Invalidate

/-!
# The invalidation closure

Draining the queue of raised columns clears exactly the stored actions that lead,
directly or through other cleared states, into a raised column. This does not
depend on the budgets, and the two ways of storing the field agree on it.
-/

set_option autoImplicit false

namespace ValueIteration

open PlannerCore

theorem mem_reverseTable {actions : List Action} {nt h : Nat} (hh : h < nt) {e : Predecessor} :
    e ∈ (reverseTable actions nt).getD h [] ↔ ∃ a row t, actions[e.action]? = some a ∧
      a.stateTransitions[e.theta.toNat]? = some row ∧ 0 ≤ e.theta ∧ t ∈ row ∧ 0 < t.prob ∧
      t.dit % (nt : Int) = h ∧ e.dx = t.dix ∧ e.dy = t.diy := by
  have hlen : h < (reverseTable actions nt).length := by simpa [reverseTable] using hh
  have hget : (reverseTable actions nt).getD h [] = (reverseTable actions nt)[h] := by
    rw [List.getD_eq_getElem?_getD, List.getElem?_eq_getElem, Option.getD_some]
  rw [hget]
  simp only [reverseTable, List.getElem_map, List.getElem_range, List.mem_flatMap, List.mem_map,
    List.mem_filter, Bool.and_eq_true, decide_eq_true_eq, beq_iff_eq]
  constructor
  · rintro ⟨⟨a, i⟩, ha, ⟨row, th⟩, hrow, t, ⟨ht, hp, hdit⟩, rfl⟩
    refine ⟨a, row, t, List.mem_zipIdx_iff_getElem?.mp ha, ?_, Int.natCast_nonneg _, ht, hp, hdit,
      rfl, rfl⟩
    rw [Int.toNat_natCast]
    exact List.mem_zipIdx_iff_getElem?.mp hrow
  · rintro ⟨a, row, t, ha, hrow, hth, ht, hp, hdit, hdx, hdy⟩
    refine ⟨(a, e.action), List.mem_zipIdx_iff_getElem?.mpr ha, (row, e.theta.toNat),
      List.mem_zipIdx_iff_getElem?.mpr hrow, t, ⟨ht, hp, hdit⟩, ?_⟩
    rw [← hdx, ← hdy, Int.toNat_of_nonneg hth]

theorem thetasOk_reverseTable {actions : List Action} {nt : Nat}
    (hwf : ∀ a ∈ actions, a.WellFormed nt) : ThetasOk (reverseTable actions nt) nt := by
  intro row hrow e he
  obtain ⟨h, hlt, rfl⟩ := List.getElem_of_mem hrow
  have hh : h < nt := by simpa [reverseTable] using hlt
  have hmem : e ∈ (reverseTable actions nt).getD h [] := by
    rw [List.getD_eq_getElem?_getD, List.getElem?_eq_getElem hlt]
    exact he
  obtain ⟨a, r, t, ha, hr, hth, _⟩ := (mem_reverseTable hh).mp hmem
  have hlen := (hwf a (List.mem_of_getElem? ha)).1
  obtain ⟨hlt', _⟩ := List.getElem?_eq_some_iff.mp hr
  omega

namespace PlannerCore

variable {K : Type} {core : PlannerCore K}

theorem standing_eq_some {q : Pos} {a : Nat} : core.standing q = some a ↔
    core.mapDims.Contains q ∧ core.movable q = true ∧ (core.entry q).2 = some a := by
  unfold standing
  split
  · next h => simp [h.1, h.2]
  · next h =>
    constructor
    · exact nofun
    · rintro ⟨h1, h2, _⟩
      exact absurd ⟨h1, h2⟩ h

/-- Once the reverse table is built, the machine's edges are the stored outcomes. -/
theorem leads_iff
    (hrev : core.global.invalidation.reverse =
      reverseTable core.build.actions core.build.thetaCellNum) {q p : Pos}
    (hp : 0 ≤ p.it ∧ p.it < core.build.thetaCellNum) :
    Retraction.Leads core.preds core.standing q p ↔
      core.mapDims.Contains q ∧ core.movable q = true ∧ core.StoredOutcome q p := by
  have hlt : p.it.toNat < core.build.thetaCellNum := by omega
  have hmod {t : StateTransition} {a : Action} {row : List StateTransition}
      (ha : a ∈ core.build.actions) (hrow : row ∈ a.stateTransitions) (ht : t ∈ row) :
      (t.dit + core.build.thetaCellNum).tmod core.build.thetaCellNum =
        t.dit % (core.build.thetaCellNum : Int) := by
    have hdit := (((core.build.wellFormed a ha).2 row hrow).1 t ht).2
    rw [Int.tmod_eq_emod_of_nonneg (by omega), Int.add_emod_right]
  constructor
  · rintro ⟨a, hst, hmem⟩
    obtain ⟨hq, hmov, hact⟩ := standing_eq_some.mp hst
    obtain ⟨e, he, heq⟩ := List.mem_map.mp hmem
    rw [hrev] at he
    obtain ⟨act, row, t, ha, hr, _, ht, hprob, hdit, hdx, hdy⟩ := (mem_reverseTable hlt).mp he
    simp only [Prod.mk.injEq] at heq
    obtain ⟨hqe, rfl⟩ := heq
    have hth : q.it = e.theta := by rw [← hqe]
    have hx : q.ix = p.ix - e.dx := by rw [← hqe]
    have hy : q.iy = p.iy - e.dy := by rw [← hqe]
    refine ⟨hq, hmov, e.action, act, t, hact, ha, ?_, hprob, ?_⟩
    · rw [Action.row, List.getD_eq_getElem?_getD, hth, hr]
      exact ht
    · rw [hmod (List.mem_of_getElem? ha) (List.mem_of_getElem? hr) ht, hdit, hx, hy, hdx, hdy]
      obtain ⟨px, py, pt⟩ := p
      simp only [Pos.mk.injEq]
      simp only at hp
      omega
  · rintro ⟨hq, hmov, i, act, t, hact, ha, ht, hprob, rfl⟩
    refine ⟨i, standing_eq_some.mpr ⟨hq, hmov, hact⟩, ?_⟩
    have hrow : ∃ row, act.stateTransitions[q.it.toNat]? = some row ∧ t ∈ row := by
      rw [Action.row, List.getD_eq_getElem?_getD] at ht
      cases hr : act.stateTransitions[q.it.toNat]? with
      | none =>
        rw [hr] at ht
        cases ht
      | some row =>
        rw [hr] at ht
        exact ⟨row, rfl, ht⟩
    obtain ⟨row, hr, ht⟩ := hrow
    have hdit := hmod (List.mem_of_getElem? ha) (List.mem_of_getElem? hr) ht
    refine List.mem_map.mpr ⟨⟨t.dix, t.diy, q.it, i⟩, ?_, ?_⟩
    · rw [hrev]
      refine (mem_reverseTable hlt).mpr ⟨act, row, t, ha, hr, hq.2.2.1, ht, hprob, ?_, rfl, rfl⟩
      rw [Int.toNat_of_nonneg hp.1, hdit]
    · simp

/-- The states queued for raised columns. -/
def raisedStates (nt : Nat) (cells : List Cell) : List Pos :=
  cells.flatMap fun c => (List.range nt).map fun (t : Nat) => (⟨c.1, c.2, t⟩ : Pos)

theorem mem_raisedStates {nt : Nat} {cells : List Cell} {p : Pos} :
    p ∈ raisedStates nt cells ↔ (p.ix, p.iy) ∈ cells ∧ 0 ≤ p.it ∧ p.it < nt := by
  obtain ⟨px, py, pt⟩ := p
  simp only [raisedStates, List.mem_flatMap, List.mem_map, List.mem_range, Pos.mk.injEq]
  constructor
  · rintro ⟨⟨x, y⟩, hc, t, ht, rfl, rfl, rfl⟩
    exact ⟨hc, by omega, by omega⟩
  · rintro ⟨hc, h0, ht⟩
    exact ⟨(px, py), hc, pt.toNat, by omega, rfl, rfl, by omega⟩

theorem length_raisedStates (nt : Nat) (cells : List Cell) :
    (raisedStates nt cells).length = cells.length * nt := by
  induction cells with
  | nil => simp [raisedStates]
  | cons c cells ih =>
    have hcons : raisedStates nt (c :: cells) = raisedStates nt [c] ++ raisedStates nt cells := by
      simp [raisedStates]
    rw [hcons, List.length_append, ih, List.length_cons, Nat.add_mul]
    simp [raisedStates, Nat.add_comm]

theorem storedOutcome_heading {s t : Pos} (hs : core.mapDims.Contains s)
    (h : core.StoredOutcome s t) : 0 ≤ t.it ∧ t.it < core.build.thetaCellNum := by
  obtain ⟨i, a, tr, _, ha, htr, _, rfl⟩ := h
  have hnt : 0 < core.build.thetaCellNum := by
    have : s.it < (core.build.thetaCellNum : Int) := hs.2.2.2
    have := hs.2.2.1
    omega
  have hrow : ∃ row ∈ a.stateTransitions, tr ∈ row := by
    rw [Action.row, List.getD_eq_getElem?_getD] at htr
    cases hr : a.stateTransitions[s.it.toNat]? with
    | none =>
      rw [hr] at htr
      cases htr
    | some row =>
      rw [hr] at htr
      exact ⟨row, List.mem_of_getElem? hr, htr⟩
  obtain ⟨row, hrow, hmem⟩ := hrow
  have hdit := (((core.build.wellFormed a (List.mem_of_getElem? ha)).2 row hrow).1 tr hmem).2
  exact tmod_add_contains hnt hdit

/-- The machine withdraws exactly the obsolete actions. -/
theorem withdrawn_iff
    (hrev : core.global.invalidation.reverse =
      reverseTable core.build.actions core.build.thetaCellNum) {cells : List Cell} {q : Pos} :
    Retraction.Withdrawn core.preds core.standing
        (fun p => p ∈ raisedStates core.build.thetaCellNum cells) q ↔ core.Obsolete cells q := by
  constructor
  · intro h
    have hgen : core.Obsolete cells q ∧ 0 ≤ q.it ∧ q.it < core.build.thetaCellNum := by
      induction h with
      | base hl hp =>
        obtain ⟨hc, hr⟩ := mem_raisedStates.mp hp
        obtain ⟨hq, hmov, hout⟩ := (leads_iff hrev hr).mp hl
        exact ⟨.raised hq hmov hout hc, hq.2.2⟩
      | step hl _ ih =>
        obtain ⟨hq, hmov, hout⟩ := (leads_iff hrev ih.2).mp hl
        exact ⟨.follows hq hmov hout ih.1, hq.2.2⟩
    exact hgen.1
  · intro h
    induction h with
    | raised hq hmov hout hc =>
      have hr := storedOutcome_heading hq hout
      exact .base ((leads_iff hrev hr).mpr ⟨hq, hmov, hout⟩) (mem_raisedStates.mpr ⟨hc, hr⟩)
    | follows hq hmov hout _ ih =>
      have hr := storedOutcome_heading hq hout
      exact .step ((leads_iff hrev hr).mpr ⟨hq, hmov, hout⟩) ih

variable (core) in
/-- Nothing is queued yet; the reverse table is the table's, if it is built already. -/
structure Idle : Prop where
  shaped : core.Shaped
  localVi : core.localVi.isSome = true
  pending : core.global.invalidation.pending = []
  reverse : core.global.invalidation.reverse = [] ∨
    core.global.invalidation.reverse = reverseTable core.build.actions core.build.thetaCellNum

theorem Shaped.localVi (hs : core.Shaped) {l : ValueIteratorLocal K} (h : core.localVi = some l) :
    l.base.actions = core.build.actions ∧ l.base.dims.nt = core.build.thetaCellNum := by
  unfold PlannerCore.localVi at h
  rcases hc : core.cached with _ | ⟨⟨l'⟩ | ⟨f⟩, part⟩
  · simp only [hc] at h
    cases h
  · simp only [hc, Option.some.injEq] at h
    subst h
    obtain ⟨hd, ha⟩ := (hs.dense l' part hc).2
    rw [hd]
    exact ⟨ha, rfl⟩
  · simp only [hc] at h
    cases hp : core.patch with
    | none =>
      simp only [hp] at h
      cases h
    | some p =>
      simp only [hp] at h
      obtain ⟨o, _, rfl⟩ := Option.map_eq_some_iff.mp h
      obtain ⟨hd, ha⟩ := (hs.patch p hp).2.table
      rw [hd]
      exact ⟨ha, rfl⟩

/-- Queueing raised columns changes the queue and the revision counters only. -/
theorem queueCostIncreases_spec (h : core.Idle) (hsweep : core.cfg.globalSweep = true)
    {cells : List Cell} (hne : cells ≠ []) :
    let core' := core.queueCostIncreases cells
    core'.Shaped ∧ core'.build = core.build ∧ core'.cached = core.cached ∧
      core'.global.invalidation.reverse =
        reverseTable core.build.actions core.build.thetaCellNum ∧
      core'.global.invalidation.pending = raisedStates core.build.thetaCellNum cells := by
  obtain ⟨l, hl⟩ := Option.isSome_iff_exists.mp h.localVi
  obtain ⟨hact, hnt⟩ := h.shaped.localVi hl
  have hcond : ¬ (cells.isEmpty = true ∨ (!core.cfg.globalSweep) = true) := by
    simp [hne, hsweep]
  have htab : (if core.global.invalidation.reverse.isEmpty = true then
      core.localVi.map fun l => reverseTable l.base.actions l.base.dims.nt
      else some core.global.invalidation.reverse) =
      some (reverseTable core.build.actions core.build.thetaCellNum) := by
    rw [hl, Option.map_some, hact, hnt]
    rcases h.reverse with hr | hr
    · rw [hr, List.isEmpty_nil, if_pos rfl]
    · split
      · rfl
      · rw [hr]
  have hlen : (reverseTable core.build.actions core.build.thetaCellNum).length =
      core.build.thetaCellNum := by simp [reverseTable]
  intro core'
  have hcore : core' = { core with global := { core.global with
      invalidation := ⟨reverseTable core.build.actions core.build.thetaCellNum,
        raisedStates core.build.thetaCellNum cells⟩
      epoch := core.global.epoch + 1
      boundaryRevision := core.global.boundaryRevision + 1
      certified := false } } := by
    simp only [core', queueCostIncreases]
    rw [if_neg hcond, htab]
    simp only [hlen, h.pending, List.nil_append]
    rfl
  rw [hcore]
  exact ⟨⟨h.shaped.dense, h.shaped.compact, h.shaped.patch, h.shaped.repair, h.shaped.overlay⟩,
    rfl, rfl, rfl, rfl⟩

/-- Draining the queue of `cells` cleared exactly the obsolete actions, each once. -/
structure ClearsExactly (core core' : PlannerCore K) (cells : List Cell) (log : List Pos) :
    Prop where
  cleared : ∀ p, core.mapDims.Contains p → core.Obsolete cells p →
    core'.entry p = ((core.entry p).1, none)
  kept : ∀ p, core.mapDims.Contains p → ¬ core.Obsolete cells p → core'.entry p = core.entry p
  mem_log : ∀ p, p ∈ log ↔ core.Obsolete cells p
  nodup : log.Nodup

/-- Whatever positive budgets are given, the queue drains and clears exactly the
obsolete actions. -/
structure InvalidationExact (core : PlannerCore K) (cells : List Cell) : Prop where
  finite : ∀ budgets : List Nat, (∀ b ∈ budgets, 0 < b) →
    cells.length * core.build.thetaCellNum + core.mapDims.count < budgets.length →
    ((core.queueCostIncreases cells).advanceAll budgets).2 = true
  exact : ∀ (budgets : List Nat) (core' : PlannerCore K), (∀ b ∈ budgets, 0 < b) →
    (core.queueCostIncreases cells).advanceAll budgets = (core', true) →
    ClearsExactly core core' cells ((core.queueCostIncreases cells).clearLogAll budgets)

/-- A dense core and a compact core with the same values and actions; states that
are not free hold no action and the goals are the zero values. -/
structure SameField (d c : PlannerCore K) : Prop where
  build : c.build = d.build
  compact : ∃ f part, c.cached = some ⟨.compact f, part⟩
  entry : ∀ p, d.mapDims.Contains p → c.entry p = d.entry p
  dense : ∃ l part, d.cached = some ⟨.dense l, part⟩ ∧ ∀ p, d.mapDims.Contains p →
    ((l.base.stateAt p).free = false → (d.entry p).2 = none) ∧
      ((l.base.stateAt p).finalState = true ↔ (d.entry p).1 = 0)

theorem SameField.movable {d c : PlannerCore K} (h : SameField d c) {p : Pos}
    (hp : d.mapDims.Contains p) (hact : (d.entry p).2 ≠ none) : c.movable p = d.movable p := by
  obtain ⟨f, part, hc⟩ := h.compact
  obtain ⟨l, part', hd, hl⟩ := h.dense
  obtain ⟨hfree, hfinal⟩ := hl p hp
  have hval : (f.read p).1 = (d.entry p).1 := by
    rw [← h.entry p hp, PlannerCore.entry, hc]
  have hf : (l.base.stateAt p).free = true := by
    by_contra hn
    exact hact (hfree (by simpa using hn))
  unfold PlannerCore.movable
  simp only [hc, hd, hf, Bool.true_and, hval]
  by_cases hz : (d.entry p).1 = 0
  · simp [hz, hfinal.mpr hz]
  · have hnf : (l.base.stateAt p).finalState = false := by
      rw [← Bool.not_eq_true]
      exact fun hn => hz (hfinal.mp hn)
    simp [hz, hnf]

theorem SameField.obsolete {d c : PlannerCore K} (h : SameField d c) (cells : List Cell) (p : Pos) :
    c.Obsolete cells p ↔ d.Obsolete cells p := by
  have hdims : c.mapDims = d.mapDims := congrArg BuildParams.mapDims h.build
  have hout : ∀ s t, d.mapDims.Contains s → (c.StoredOutcome s t ↔ d.StoredOutcome s t) := by
    intro s t hs
    unfold StoredOutcome
    rw [h.build, h.entry s hs]
  have hact : ∀ s t, d.StoredOutcome s t → (d.entry s).2 ≠ none := by
    rintro s t ⟨i, _, _, hi, _⟩ hn
    rw [hn] at hi
    cases hi
  constructor
  · intro hc
    induction hc with
    | raised hs hmov ho hin =>
      rw [hdims] at hs
      rw [hout _ _ hs] at ho
      rw [h.movable hs (hact _ _ ho)] at hmov
      exact .raised hs hmov ho hin
    | follows hs hmov ho _ ih =>
      rw [hdims] at hs
      rw [hout _ _ hs] at ho
      rw [h.movable hs (hact _ _ ho)] at hmov
      exact .follows hs hmov ho ih
  · intro hd
    induction hd with
    | raised hs hmov ho hin =>
      rw [← h.movable hs (hact _ _ ho)] at hmov
      rw [← hout _ _ hs] at ho
      exact .raised (hdims ▸ hs) hmov ho hin
    | follows hs hmov ho _ ih =>
      rw [← h.movable hs (hact _ _ ho)] at hmov
      rw [← hout _ _ hs] at ho
      exact .follows (hdims ▸ hs) hmov ho ih

theorem not_obsolete_nil (p : Pos) : ¬ core.Obsolete [] p := by
  intro h
  induction h with
  | raised _ _ _ hin => cases hin
  | follows _ _ _ _ ih => exact ih

/-- With nothing to clear, the first call returns. -/
theorem invalidationExact_nil (h : core.Idle) : InvalidationExact core [] := by
  have hq : core.queueCostIncreases [] = core := by simp [queueCostIncreases]
  have hstep : core.invalidateStep = none := by rw [invalidateStep, h.pending]
  have hadv : ∀ b, core.advanceInvalidations b = (core, true) := by
    intro b
    cases b with
    | zero => rw [advanceInvalidations, h.pending]; rfl
    | succ b => rw [advanceInvalidations, hstep]
  have hlog : ∀ b, core.clearLog b = [] := by
    intro b
    cases b with
    | zero => rfl
    | succ b => rw [clearLog, hstep]
  refine ⟨?_, ?_⟩
  · intro budgets _ hlt
    rw [hq]
    cases budgets with
    | nil => simp at hlt
    | cons b bs => simp [advanceAll, hadv]
  · intro budgets core' _ hrun
    rw [hq] at hrun ⊢
    cases budgets with
    | nil => simp [advanceAll] at hrun
    | cons b bs =>
      simp only [advanceAll, hadv, if_true, Prod.mk.injEq, and_true] at hrun
      subst hrun
      simp only [clearLogAll, hadv, hlog, if_true, List.append_nil]
      refine ⟨fun p _ ho => absurd ho (not_obsolete_nil p), fun _ _ _ => rfl, ?_, List.nodup_nil⟩
      intro p
      simp [not_obsolete_nil p]

theorem invalidationExact_cons (h : core.Idle) (hsweep : core.cfg.globalSweep = true)
    {cells : List Cell} (hne : cells ≠ []) : InvalidationExact core cells := by
  obtain ⟨hs, hb, hc, hrev, hpend⟩ := queueCostIncreases_spec h hsweep hne
  generalize hcore₀ : core.queueCostIncreases cells = core₀ at hs hb hc hrev hpend
  have hentry : core₀.entry = core.entry := entry_congr hc
  have hmov : core₀.movable = core.movable := movable_congr hc
  have hobs : ∀ p, core₀.Obsolete cells p ↔ core.Obsolete cells p := by
    have hout : core₀.StoredOutcome = core.StoredOutcome := by
      unfold StoredOutcome
      rw [hb, hentry]
    have hdims : core₀.mapDims = core.mapDims := congrArg BuildParams.mapDims hb
    intro p
    constructor
    · intro ho
      induction ho with
      | raised h1 h2 h3 h4 => exact .raised (hdims ▸ h1) (hmov ▸ h2) (hout ▸ h3) h4
      | follows h1 h2 h3 _ ih => exact .follows (hdims ▸ h1) (hmov ▸ h2) (hout ▸ h3) ih
    · intro ho
      induction ho with
      | raised h1 h2 h3 h4 => exact .raised (hdims ▸ h1) (hmov ▸ h2) (hout ▸ h3) h4
      | follows h1 h2 h3 _ ih => exact .follows (hdims ▸ h1) (hmov ▸ h2) (hout ▸ h3) ih
  rw [← hb] at hrev hpend
  have hok : ThetasOk core₀.global.invalidation.reverse core₀.build.thetaCellNum := by
    rw [hrev]
    exact thetasOk_reverseTable core₀.build.wellFormed
  let m : Retraction.Machine Pos Nat :=
    ⟨core₀.standing, raisedStates core₀.build.thetaCellNum cells, []⟩
  have hm : Mirrors core₀ core₀ m :=
    ⟨hs, rfl, rfl, rfl, hpend, fun _ => rfl, fun _ _ => by simp [m], fun _ _ => rfl⟩
  have hinv : Retraction.Inv core₀.preds core₀.standing
      (fun p => p ∈ raisedStates core₀.build.thetaCellNum cells) m :=
    Retraction.Inv.start fun _ => Iff.rfl
  have hnodes : ∀ q, (m.choice q).isSome = true → q ∈ core₀.mapDims.all.toFinset := by
    intro q hq
    obtain ⟨a, ha⟩ := Option.isSome_iff_exists.mp hq
    exact List.mem_toFinset.mpr (Dims.mem_all.mpr (standing_eq_some.mp ha).1)
  have hpot : Retraction.potential core₀.mapDims.all.toFinset m ≤
      cells.length * core.build.thetaCellNum + core.mapDims.count := by
    have hcard := (Finset.card_filter_le core₀.mapDims.all.toFinset
      fun q => (core₀.standing q).isSome = true).trans (List.toFinset_card_le _)
    rw [Dims.length_all] at hcard
    have hlen := length_raisedStates core₀.build.thetaCellNum cells
    have hdims : core₀.mapDims = core.mapDims := congrArg BuildParams.mapDims hb
    rw [hdims] at hcard
    simp only [Retraction.potential, m]
    rw [hlen, hb, hdims]
    omega
  refine ⟨?_, ?_⟩
  · intro budgets hpos hlt
    rw [hcore₀]
    exact (hm.advanceAll hok budgets hinv hnodes hpos).1 (lt_of_le_of_lt hpot hlt)
  · intro budgets core' hpos hrun
    rw [hcore₀] at hrun ⊢
    obtain ⟨m', h', hinv', hempty, hlog⟩ :=
      (hm.advanceAll hok budgets hinv hnodes hpos).2 (by rw [hrun])
    rw [hrun] at h'
    rw [List.nil_append] at hlog
    have hexact : ∀ p, p ∈ core₀.clearLogAll budgets ↔ core.Obsolete cells p := by
      intro p
      rw [← hlog, hinv'.exact hempty, withdrawn_iff hrev, hobs]
    refine ⟨?_, ?_, hexact, ?_⟩
    · intro p hp ho
      rw [h'.entry p (by rw [mapDims, hb]; exact hp), hlog, if_pos ((hexact p).mpr ho), hentry]
    · intro p hp ho
      rw [h'.entry p (by rw [mapDims, hb]; exact hp), hlog, hentry,
        if_neg fun hn => ho ((hexact p).mp hn)]
    · rw [← hlog]
      exact hinv'.nodup

/-- With the global worker on, an invalidation is exact whatever the budgets, and a
compact core clears the same states as a dense one with the same field. -/
theorem invalidation_closure (h : core.Idle) (hsweep : core.cfg.globalSweep = true)
    (cells : List Cell) : InvalidationExact core cells ∧
      ∀ c : PlannerCore K, c.Idle → c.cfg.globalSweep = true → SameField core c →
        ∀ budgets budgets' : List Nat, (∀ b ∈ budgets, 0 < b) → (∀ b ∈ budgets', 0 < b) →
          ((core.queueCostIncreases cells).advanceAll budgets).2 = true →
          ((c.queueCostIncreases cells).advanceAll budgets').2 = true →
          ∀ p, p ∈ (c.queueCostIncreases cells).clearLogAll budgets' ↔
            p ∈ (core.queueCostIncreases cells).clearLogAll budgets := by
  have hexact : ∀ x : PlannerCore K, x.Idle → x.cfg.globalSweep = true →
      InvalidationExact x cells := by
    intro x hx hxs
    by_cases hne : cells = []
    · rw [hne]
      exact invalidationExact_nil hx
    · exact invalidationExact_cons hx hxs hne
  refine ⟨hexact core h hsweep, ?_⟩
  intro c hc hcs hsame budgets budgets' hpos hpos' hend hend' p
  have hd := (hexact core h hsweep).exact budgets _ hpos (Prod.ext rfl hend)
  have hc' := (hexact c hc hcs).exact budgets' _ hpos' (Prod.ext rfl hend')
  rw [hd.mem_log, hc'.mem_log, hsame.obsolete]

/-- Two free cells in a row; the one action leads from the left one to the goal. -/
def corridorBuild : BuildParams ℚ where
  grid := ⟨2, 1, 1, 0, 0, [0, 0]⟩
  actions := [⟨[[⟨1, 0, 0, probBase⟩]]⟩]
  deltaFw := [1]
  thetaCellNum := 1
  mapPenaltyRadius := 0
  mapPenalty := 0
  localShape := ⟨.square, 1, 0, 1, 0, 1⟩
  patchSlackCells := 1
  repairInteriorCells := 4
  wellFormed := by decide

/-- Four free cells in a row; the one action leads to the right, where the goal is. -/
def hallBuild : BuildParams ℚ := { corridorBuild with grid := ⟨4, 1, 1, 0, 0, [0, 0, 0, 0]⟩ }

/-- The solved field of the row. -/
def hallField : ValueIterator where
  states := Grid.ofFn ⟨4, 1, 1⟩ fun p =>
    if p.ix = 3 then ⟨0, probBase, 0, true, true, none⟩
    else ⟨(3 - p.ix).toNat * probBase, probBase, 0, true, false, some 0⟩
  actions := hallBuild.actions
  wellFormed := hallBuild.wellFormed

/-- The planner core of the row, with or without its global worker. -/
def hall (globalSweep : Bool) : PlannerCore ℚ where
  build := hallBuild
  cfg := ⟨false, 1, 10000, 0, false, globalSweep⟩
  cached := some ⟨.dense (.new hallField 1 (0, 0) 0 0 hallBuild.localShape), false⟩
  patch := none
  penalty := none
  repair := none
  sweep := ⟨none, [], 0, 0, 0, none⟩
  global := ⟨0, 0, none, [], [], false, none, none, 0, 0, ⟨[], []⟩⟩
  dirty := false

theorem hall_idle (globalSweep : Bool) : (hall globalSweep).Idle := by
  refine ⟨⟨?_, ?_, ?_, ?_, ?_⟩, rfl, rfl, Or.inl rfl⟩
  · intro l part h
    simp only [hall, Option.some.injEq, CachedGoal.mk.injEq, GoalField.dense.injEq] at h
    obtain ⟨rfl, _⟩ := h
    exact ⟨rfl, rfl, rfl⟩
  · intro f part h
    simp [hall] at h
  · intro p h
    simp [hall] at h
  · intro r h
    simp [hall] at h
  · intro o h
    simp [hall] at h

theorem hall_outcome (globalSweep : Bool) {x : Int} (hx : x = 0 ∨ x = 1 ∨ x = 2) {t : Pos} :
    (hall globalSweep).StoredOutcome ⟨x, 0, 0⟩ t ↔ t = ⟨x + 1, 0, 0⟩ := by
  have hentry : ((hall globalSweep).entry ⟨x, 0, 0⟩).2 = some 0 := by
    rcases hx with rfl | rfl | rfl <;> rfl
  constructor
  · rintro ⟨i, a, tr, hi, ha, htr, _, rfl⟩
    rw [hentry] at hi
    cases hi
    cases ha
    rw [List.mem_singleton.mp htr]
    simp [hall, hallBuild, corridorBuild]
  · rintro rfl
    refine ⟨0, ⟨[[⟨1, 0, 0, probBase⟩]]⟩, ⟨1, 0, 0, probBase⟩, hentry, rfl,
      List.mem_singleton_self _, by decide, ?_⟩
    simp [hall, hallBuild, corridorBuild]

/-- With the third cell raised the second one is obsolete, and so is the first one, which leads
to the second; the third itself leads to the goal. -/
theorem hall_obsolete (globalSweep : Bool) : (hall globalSweep).Obsolete [(2, 0)] ⟨0, 0, 0⟩ ∧
    (hall globalSweep).Obsolete [(2, 0)] ⟨1, 0, 0⟩ ∧
    ¬ (hall globalSweep).Obsolete [(2, 0)] ⟨2, 0, 0⟩ := by
  have hfirst : hallBuild.mapDims.Contains ⟨0, 0, 0⟩ := by decide
  have hsecond : hallBuild.mapDims.Contains ⟨1, 0, 0⟩ := by decide
  have hmiddle : (hall globalSweep).Obsolete [(2, 0)] ⟨1, 0, 0⟩ :=
    .raised hsecond rfl ((hall_outcome globalSweep (by decide)).mpr rfl)
      (List.mem_singleton_self _)
  refine ⟨?_, hmiddle, ?_⟩
  · exact .follows hfirst rfl ((hall_outcome globalSweep (by decide)).mpr rfl) hmiddle
  · have hgoal : ¬ (hall globalSweep).Obsolete [(2, 0)] ⟨3, 0, 0⟩ := by
      intro h
      cases h with
      | raised _ _ hout _ => obtain ⟨i, _, _, hi, _⟩ := hout; cases hi
      | follows _ _ hout _ => obtain ⟨i, _, _, hi, _⟩ := hout; cases hi
    intro h
    cases h with
    | raised _ _ hout hmem =>
      rw [(hall_outcome globalSweep (by decide)).mp hout] at hmem
      exact absurd hmem (by decide)
    | follows _ _ hout hobs =>
      rw [(hall_outcome globalSweep (by decide)).mp hout] at hobs
      exact hgoal hobs

/-- In the row two actions are gone, the one that led to the raised cell and the one before
it, and nothing else. -/
theorem hall_invalidation : (hall true).Idle ∧ (hall true).cfg.globalSweep = true ∧
    ((hall true).Obsolete [(2, 0)] ⟨0, 0, 0⟩ ∧ (hall true).Obsolete [(2, 0)] ⟨1, 0, 0⟩ ∧
      ¬ (hall true).Obsolete [(2, 0)] ⟨2, 0, 0⟩) ∧
    InvalidationExact (hall true) [(2, 0)] := by
  refine ⟨hall_idle true, rfl, hall_obsolete true, ?_⟩
  exact (invalidation_closure (hall_idle true) rfl [(2, 0)]).1

/-- Without the global worker the policy stays frozen. -/
theorem hall_frozen : (hall false).Idle ∧ ¬ InvalidationExact (hall false) [(2, 0)] := by
  refine ⟨hall_idle false, ?_⟩
  intro h
  have hrun : ((hall false).queueCostIncreases [(2, 0)]).advanceAll [1] = (hall false, true) := rfl
  have hcell : (hall false).mapDims.Contains ⟨1, 0, 0⟩ :=
    ⟨by decide, by decide, by decide, by decide⟩
  have hexact := h.exact [1] _ (by decide) hrun
  have hentry := hexact.cleared _ hcell (hall_obsolete false).2.1
  have hact : ((hall false).entry ⟨1, 0, 0⟩).2 = some 0 := rfl
  rw [hentry] at hact
  cases hact

end PlannerCore

end ValueIteration
