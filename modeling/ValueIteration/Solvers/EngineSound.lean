import ValueIteration.Solvers.RoundSpec

/-!
# What a converged parallel run leaves behind

Between rounds every evaluated state outside the next candidates holds its clamped
update. A `Regime` names what else a solver keeps: the words that are proper, the
property of the field, and the values it may write.
-/

set_option autoImplicit false

namespace ValueIteration

open Async ValueIterator CellModel

variable {vi : ValueIterator}

/-- The clamped update of the map, with the start's values on the other states. -/
def clampedUpdate (vi : ValueIterator) : (Pos → Nat) → Pos → Nat :=
  vi.world.operator vi.world.clampedCost vi.costs

/-- Evaluated states outside `E` hold their clamped update. -/
def CoveredBy (vi : ValueIterator) (E : Set Pos) (V : Pos → Nat) : Prop :=
  Chaotic.Covered (clampedUpdate vi) (fun s => vi.world.evaluable s = true) E V

/-- Those who read a moved state. -/
def readersOf (vi : ValueIterator) (changed : List CellMoves) : Set Pos :=
  {s | ∃ t, vi.world.Reads s t ∧ Moved changed t}

theorem RoundSpec.covered {m : CellModel} {E : Set Pos} {mem fin : Int → Nat}
    {changed : List CellMoves} (h : RoundSpec m vi E mem fin changed)
    (hcov : CoveredBy vi E (m.field vi mem)) :
    CoveredBy vi (readersOf vi changed) (m.field vi fin) := by
  refine Chaotic.Covered.round (World.operator_local World.clampedCost_local vi.costs) hcov
    (h.mixed.round vi.costs) ?_
  intro s hs t ht hne
  exact ⟨t, ht, (h.moved t (reads_inBox (evaluable_iff.mp hs).1 ht).1).mp hne⟩

/-- What a solver keeps besides coverage. -/
structure Regime (vi : ValueIterator) where
  cells : CellModel
  Proper : Int → Nat → Prop
  Good : (Pos → Nat) → Prop
  Allowed : Pos → Nat → Prop
  models : cells.Models vi Proper
  fits : ∀ p v, vi.dims.Contains p → CostValue v → Allowed p v → cells.Fits vi p v

/-- A state of the memory between rounds. -/
structure Regime.Sound (R : Regime vi) (mem : Int → Nat) (E : Set Pos) : Prop where
  proper : ∀ i, R.Proper i (mem i)
  good : R.Good (R.cells.field vi mem)
  covered : CoveredBy vi E (R.cells.field vi mem)

/-- Every value an update can have written is one the regime allows. -/
def Regime.Allows (R : Regime vi) (writes : List (Pos × Nat)) : Prop :=
  ∀ w ∈ writes, vi.world.evaluable w.1 = true → CostValue w.2 → R.Allowed w.1 w.2

/-- The regime survives the rounds of the engine. -/
def Regime.Stable (R : Regime vi) : Prop :=
  ∀ {cands : List (Nat × Nat)} {its : Nat × Nat → List Nat} {nthreads : Nat}
    {sched : List (Nat × Bool)} {mem fin : Int → Nat} {logs : List (List CellMoves)},
    Candidates vi cands its → 0 < nthreads →
    (R.cells.round vi cands its).run nthreads mem sched = some (fin, logs) →
    (∀ i, R.Proper i (mem i)) → R.Good (R.cells.field vi mem) →
    R.cells.AllFit vi logs.flatten →
    (∀ w ∈ writesOf (logs.flatten.filter fun e => !e.2.isEmpty),
      vi.dims.Contains w.1 ∧ R.Allowed w.1 w.2) →
      (∀ i, R.Proper i (fin i)) ∧
        (RoundSpec R.cells vi (activeSet cands its) mem fin
          (logs.flatten.filter fun e => !e.2.isEmpty) → R.Good (R.cells.field vi fin))

section Loop
variable {S : Type} {sw : Sweep S} {nthreads : Nat} {sched : Nat → List (Nat × Bool)}
  {boundary : Nat → Nat → (Int → Nat) → SolveFlow}

theorem gsRound_eq {cand : List (Nat × Nat)} {st st' : GsState S} {changed : List CellMoves}
    (h : gsRound vi sw nthreads sched cand st = some (st', changed)) :
    ∃ logs, (sw.cells.round vi cand (sw.headings st.own)).run nthreads st.mem (sched st.iters) =
        some (st'.mem, logs) ∧ changed = logs.flatten.filter (fun e => !e.2.isEmpty) ∧
      st'.own = sw.mark st.own changed ∧ st'.writes = st.writes ++ writesOf changed ∧
      st'.seen = st.seen := by
  obtain ⟨r, hr, heq⟩ := Option.map_eq_some_iff.mp h
  simp only [Prod.mk.injEq] at heq
  obtain ⟨rfl, rfl⟩ := heq
  exact ⟨r.2, hr, rfl, rfl, rfl, rfl⟩

/-- A property `P` of candidates and state, and `M` of a state and what it changed:
each round turns one into the other. -/
theorem gsLoop_induct (P : List (Nat × Nat) → GsState S → Prop)
    (M : GsState S → List CellMoves → Prop)
    (hround : ∀ cand st st' changed, P cand st →
      gsRound vi sw nthreads sched cand st = some (st', changed) → M st' changed)
    (hnext : ∀ st changed cand, M st changed → nextCands vi st.iters changed = some cand →
      P cand st)
    (hseen : ∀ st changed, M st changed → M st.observed changed) (fuel : Nat) :
    ∀ {cand : List (Nat × Nat)} {st : GsState S} {r : GsRun}, P cand st →
      gsLoop vi sw nthreads sched boundary fuel cand st = some r →
      ∃ st' changed, M st' changed ∧ r = st'.finish r.outcome ∧
        (r.outcome.converged = true → changed = [] ∧ r.outcome.cancelled = false) := by
  induction fuel with
  | zero =>
    intro cand st r h hr
    obtain ⟨⟨st', changed⟩, hrd, rfl⟩ := Option.map_eq_some_iff.mp hr
    exact ⟨st', changed, hround _ _ _ _ h hrd, rfl, fun hc => ⟨List.isEmpty_iff.mp hc, rfl⟩⟩
  | succ fuel ih =>
    intro cand st r h hr
    unfold gsLoop at hr
    cases hrd : gsRound vi sw nthreads sched cand st with
    | none => rw [hrd] at hr; cases hr
    | some p =>
      obtain ⟨st', changed⟩ := p
      have hM := hround _ _ _ _ h hrd
      rw [hrd] at hr
      simp only at hr
      split at hr
      · next hempty =>
        cases hr
        exact ⟨st', changed, hM, rfl, fun _ => ⟨List.isEmpty_iff.mp hempty, rfl⟩⟩
      split at hr
      · split at hr
        · cases hr
          exact ⟨_, changed, hseen _ _ hM, rfl, fun hc => by cases hc⟩
        · cases hr
          exact ⟨_, changed, hseen _ _ hM, rfl, fun hc => by cases hc⟩
        · split at hr
          · cases hr
          · next hn => exact ih (hnext _ _ _ (hseen _ _ hM) hn) hr
      · split at hr
        · cases hr
        · next hn => exact ih (hnext _ _ _ hM hn) hr

/-- What makes a sweep propagate every move; `Marks own changed` holds of the
leader's data after a round that changed `changed`. -/
structure Sweep.Lawful (sw : Sweep S) (vi : ValueIterator) (own₀ : S)
    (Marks : S → List CellMoves → Prop) : Prop where
  start : Marks own₀ []
  mark : ∀ own old changed, Marks own old → WellMoved vi changed →
    Marks (sw.mark own changed) changed
  legal : ∀ own changed, Marks own changed → WellMoved vi changed → ∀ c, InMap vi c →
    (sw.headings own c).Nodup ∧ ∀ it ∈ sw.headings own c, it < vi.dims.nt
  first : ∀ c it, it < vi.dims.nt → it ∈ sw.headings own₀ c
  covers : ∀ own changed, Marks own changed → WellMoved vi changed → ∀ s t,
    vi.dims.Contains s → vi.InBox s t → Moved changed t →
      s.it.toNat ∈ sw.headings own (s.ix.toNat, s.iy.toNat)

/-- Evaluating every heading needs no data of the leader. -/
theorem fullSweep_lawful (m : CellModel) : Sweep.Lawful
    ⟨m, fun _ _ => List.range vi.dims.nt, fun (_ : Unit) _ => ()⟩ vi () fun _ _ => True where
  start := trivial
  mark _ _ _ _ _ := trivial
  legal _ _ _ _ _ _ := ⟨List.nodup_range, fun _ h => List.mem_range.mp h⟩
  first _ _ h := List.mem_range.mpr h
  covers _ _ _ _ _ _ hs _ _ := List.mem_range.mpr (eq_thetaPos hs).2.2

/-- Every state with a moved one in its box is in a dilated cell. -/
theorem nextCands_spec {iters : Nat} {changed : List CellMoves} {cand : List (Nat × Nat)}
    (hwell : WellMoved vi changed) (h : nextCands vi iters changed = some cand) :
    cand.Nodup ∧ (∀ c ∈ cand, InMap vi c) ∧ ∀ s t, vi.dims.Contains s → vi.InBox s t →
      Moved changed t → (s.ix.toNat, s.iy.toNat) ∈ cand := by
  have hin : ∀ c ∈ changed.map (·.1), c.1 < vi.dims.nx ∧ c.2 < vi.dims.ny := by
    intro c hc
    obtain ⟨⟨d, moves⟩, hd, rfl⟩ := List.mem_map.mp hc
    exact hwell.inMap d moves hd
  have hplanar := @planar_ofCells vi _ hin
  obtain ⟨nf, hnf, hcand⟩ := Option.map_eq_some_iff.mp h
  obtain ⟨_, hx, hy⟩ := Bitboard2D.dilate_dims hnf
  have hmem : ∀ c, c ∈ cand ↔ c ∈ nf.enumerate := by
    intro c
    rw [← hcand]
    split
    · exact List.mem_reverse
    · exact Iff.rfl
  refine ⟨?_, ?_, ?_⟩
  · rw [← hcand]
    split
    · exact List.nodup_reverse.mpr Bitboard2D.nodup_enumerate
    · exact Bitboard2D.nodup_enumerate
  · rintro ⟨x, y⟩ hc
    obtain ⟨h1, h2, _⟩ := Bitboard2D.mem_enumerate.mp ((hmem _).mp hc)
    rw [hx, hplanar.2.1] at h1
    rw [hy, hplanar.2.2] at h2
    exact ⟨h1, h2⟩
  · intro s t hs hbox hmoved
    have hct := hwell.contains hmoved
    rw [hmem]
    refine hplanar.mem_dilate_of_inBox (le_refl _) (le_refl _) hnf hs hct ?_ hbox
    obtain ⟨c, moves, hc, e, he, rfl⟩ := hmoved
    have hcm := List.mem_map_of_mem (f := fun e : CellMoves => e.1) hc
    exact (Bitboard2D.mem_ofCells hin (hin _ hcm).1).mpr hcm

theorem seedCands_spec {cand : List (Nat × Nat)} (h : vi.seedCands = some cand) :
    cand.Nodup ∧ (∀ c ∈ cand, InMap vi c) ∧ ∀ s t, vi.dims.Contains s → vi.dims.Contains t →
      vi.InBox s t → vi.costs t < maxCost → (s.ix.toNat, s.iy.toNat) ∈ cand := by
  obtain ⟨hplanar, hseed⟩ := @seedFrontier2d_spec vi
  obtain ⟨nf, hnf, rfl⟩ := Option.map_eq_some_iff.mp h
  obtain ⟨_, hx, hy⟩ := Bitboard2D.dilate_dims hnf
  refine ⟨Bitboard2D.nodup_enumerate, ?_, ?_⟩
  · rintro ⟨x, y⟩ hc
    obtain ⟨h1, h2, _⟩ := Bitboard2D.mem_enumerate.mp hc
    rw [hx, hplanar.2.1] at h1
    rw [hy, hplanar.2.2] at h2
    exact ⟨h1, h2⟩
  · intro s t hs ht hbox hlt
    exact hplanar.mem_dilate_of_inBox (le_refl _) (le_refl _) hnf hs ht (hseed t ht hlt) hbox

theorem mem_activeSet {cands : List (Nat × Nat)} {its : Nat × Nat → List Nat} {s : Pos}
    (hs : vi.dims.Contains s) (hc : (s.ix.toNat, s.iy.toNat) ∈ cands)
    (hit : s.it.toNat ∈ its (s.ix.toNat, s.iy.toNat)) : s ∈ activeSet cands its :=
  ⟨_, hc, _, hit, (eq_thetaPos hs).1⟩

/-- An update that reads unreached states only is `MAX_COST`. -/
theorem backup_of_unreached {V : Pos → Nat} {s : Pos} (hs : vi.dims.Contains s)
    (h : ∀ t, vi.world.Reads s t → V t = maxCost) :
    (vi.world.backup vi.world.clampedCost V s).1 = maxCost := by
  apply le_antisymm (World.backup_le _ _ _)
  refine Argmin.le_argminBelow (le_refl _) ?_
  intro x hx
  obtain ⟨c, hc, rfl⟩ := List.mem_map.mp hx
  cases c with
  | none => exact le_refl _
  | some row =>
    obtain ⟨o, ho⟩ := List.exists_mem_of_ne_nil row (row_ne_nil hs hc)
    have hany : (row.any fun o => V o.1 == maxCost) = true :=
      List.any_eq_true.mpr ⟨o, ho, by rw [h o.1 ⟨row, hc, o.2, ho⟩]; exact beq_self_eq_true _⟩
    simp only [World.clampedCost, hany, if_true]
    exact le_refl _

/-- Values at most `MAX_COST` are covered by the states near a reached one. -/
theorem covered_start {V : Pos → Nat} {E : Set Pos}
    (hle : ∀ p, vi.dims.Contains p → vi.costs p ≤ maxCost)
    (hV : ∀ p, vi.dims.Contains p → vi.costs p = maxCost → V p = maxCost)
    (hE : ∀ s t, vi.dims.Contains s → vi.dims.Contains t → vi.InBox s t → vi.costs t < maxCost →
      s ∈ E) : CoveredBy vi E V := by
  intro s hs hnot
  have hcs := (evaluable_iff.mp hs).1
  have hmax : ∀ t, vi.dims.Contains t → vi.InBox s t → V t = maxCost := by
    intro t ht hbox
    apply hV t ht
    by_contra hne
    exact hnot (hE s t hcs ht hbox (lt_of_le_of_ne (hle t ht) hne))
  have hb := backup_of_unreached (V := V) hcs fun t ht =>
    hmax t (reads_inBox hcs ht).1 (reads_inBox hcs ht).2
  simp only [clampedUpdate, World.operator, hs, if_true]
  rw [hmax s hcs (inBox_self hcs), hb]

/-- The first candidates cover any start. -/
theorem seedCands_covered {cand : List (Nat × Nat)} (h : vi.seedCands = some cand)
    {V : Pos → Nat} (hle : ∀ p, vi.dims.Contains p → vi.costs p ≤ maxCost)
    (hV : ∀ p, vi.dims.Contains p → vi.costs p = maxCost → V p = maxCost)
    {its : Nat × Nat → List Nat} (hits : ∀ c it, it < vi.dims.nt → it ∈ its c) :
    CoveredBy vi (activeSet cand its) V := by
  apply covered_start hle hV
  intro s t hs ht hbox hlt
  exact mem_activeSet hs ((seedCands_spec h).2.2 s t hs ht hbox hlt)
    (hits _ _ (eq_thetaPos hs).2.2)

/-- A run of the loop in a stable regime, all of whose writes are allowed. -/
theorem gsLoop_sound (R : Regime vi) (hsw : sw.cells = R.cells) (hstable : R.Stable) {own₀ : S}
    {Marks : S → List CellMoves → Prop} (law : sw.Lawful vi own₀ Marks) (hn : 0 < nthreads)
    {mem₀ : Int → Nat} {obs : SolveObserver} {cand₀ : List (Nat × Nat)} {fuel : Nat} {r : GsRun}
    (hcand : vi.seedCands = some cand₀)
    (hsound : R.Sound mem₀ (activeSet cand₀ (sw.headings own₀)))
    (hrun : gsLoop vi sw nthreads sched boundary fuel cand₀ (GsState.start mem₀ own₀ obs) = some r)
    (hallow : R.Allows r.writes) :
    (∃ E, R.Sound r.mem E ∧
      (r.outcome.converged = true → E = ∅ ∧ r.outcome.cancelled = false)) ∧
      ∀ mem ∈ r.seen, ∃ E, R.Sound mem E := by
  let P : List (Nat × Nat) → GsState S → Prop := fun cand st => R.Allows st.writes →
    Candidates vi cand (sw.headings st.own) ∧ (∃ old, Marks st.own old) ∧
      R.Sound st.mem (activeSet cand (sw.headings st.own)) ∧ ∀ mem ∈ st.seen, ∃ E, R.Sound mem E
  let M : GsState S → List CellMoves → Prop := fun st changed => R.Allows st.writes →
    WellMoved vi changed ∧ Marks st.own changed ∧ R.Sound st.mem (readersOf vi changed) ∧
      ∀ mem ∈ st.seen, ∃ E, R.Sound mem E
  have hround : ∀ cand st st' changed, P cand st →
      gsRound vi sw nthreads sched cand st = some (st', changed) → M st' changed := by
    intro cand st st' changed hP hrd hall
    obtain ⟨logs, hmach, hch, hown, hwrites, hsame⟩ := gsRound_eq hrd
    rw [hwrites] at hall
    obtain ⟨hcd, ⟨old, hold⟩, hs, hseen⟩ := hP fun w hw => hall w (List.mem_append_left _ hw)
    rw [hsw] at hmach
    have hnew := writes_of_run R.models hcd hn hmach
    have hwell := wellMoved_of_run R.models hcd hn hmach
    rw [← hch] at hnew hwell
    have hallowed : ∀ w ∈ writesOf changed, vi.dims.Contains w.1 ∧ R.Allowed w.1 w.2 :=
      fun w hw => ⟨(evaluable_iff.mp (hnew w hw).1).1,
        hall w (List.mem_append_right _ hw) (hnew w hw).1 (hnew w hw).2⟩
    have hfits : R.cells.AllFit vi logs.flatten := by
      apply allFit_of_writes
      rw [← hch]
      intro w hw
      exact R.fits _ _ (hallowed w hw).1 (hnew w hw).2 (hallowed w hw).2
    obtain ⟨hproper, hgood⟩ := hstable hcd hn hmach hs.proper hs.good hfits (by rwa [← hch])
    have hspec := roundSpec_of_run R.models hcd hn hmach hs.proper hproper hfits
    have hg := hgood hspec
    rw [← hch] at hspec
    refine ⟨hwell, ?_, ⟨hproper, hg, hspec.covered hs.covered⟩, hsame ▸ hseen⟩
    rw [hown]
    exact law.mark _ _ _ hold hwell
  have hnext : ∀ st changed cand, M st changed →
      nextCands vi st.iters changed = some cand → P cand st := by
    intro st changed cand hM hcand hall
    obtain ⟨hwell, hmarks, hs, hseen⟩ := hM hall
    obtain ⟨hnodup, hin, hcov⟩ := nextCands_spec hwell hcand
    refine ⟨⟨hnodup, hin, fun c hc => law.legal _ _ hmarks hwell c (hin c hc)⟩, ⟨_, hmarks⟩,
      ⟨hs.proper, hs.good, ?_⟩, hseen⟩
    intro s hs' hnot
    apply hs.covered s hs'
    rintro ⟨t, ht, hmoved⟩
    have hcs := (evaluable_iff.mp hs').1
    have hbox := (reads_inBox hcs ht).2
    exact hnot (mem_activeSet hcs (hcov s t hcs hbox hmoved)
      (law.covers _ _ hmarks hwell s t hcs hbox hmoved))
  obtain ⟨hnodup, hin, _⟩ := seedCands_spec hcand
  have hstart : P cand₀ (GsState.start mem₀ own₀ obs) := fun _ =>
    ⟨⟨hnodup, hin, fun c hc => law.legal _ _ law.start wellMoved_nil c (hin c hc)⟩,
      ⟨_, law.start⟩, hsound, fun _ hmem => by cases hmem⟩
  have hobserved : ∀ st changed, M st changed → M st.observed changed := by
    intro st changed hM hall
    obtain ⟨hwell, hmarks, hs, hseen⟩ := hM hall
    refine ⟨hwell, hmarks, hs, ?_⟩
    intro mem hmem
    cases List.mem_append.mp hmem with
    | inl hold => exact hseen mem hold
    | inr hnew => exact ⟨_, List.mem_singleton.mp hnew ▸ hs⟩
  obtain ⟨st, changed, hM, hr, hconv⟩ :=
    gsLoop_induct P M hround hnext hobserved fuel hstart hrun
  have hwr : r.writes = st.writes := by rw [hr]; rfl
  have hmem : r.mem = st.mem := by rw [hr]; rfl
  obtain ⟨_, _, hs, hseen⟩ := hM (by rwa [← hwr])
  refine ⟨?_, (show r.seen = st.seen by rw [hr]; rfl) ▸ hseen⟩
  rw [hmem]
  refine ⟨_, hs, ?_⟩
  intro hc
  obtain ⟨hch, hcancel⟩ := hconv hc
  refine ⟨?_, hcancel⟩
  rw [hch]
  apply Set.eq_empty_of_forall_notMem
  rintro s ⟨t, _, c, moves, hmem, _⟩
  cases hmem

end Loop

/-- The regime survives any round; enough where every word is proper. -/
def Regime.Carried (R : Regime vi) : Prop :=
  ∀ {E : Set Pos} {mem fin : Int → Nat} {changed : List CellMoves},
    RoundSpec R.cells vi E mem fin changed →
    (∀ w ∈ writesOf changed, vi.dims.Contains w.1 ∧ R.Allowed w.1 w.2) →
      R.Good (R.cells.field vi mem) → R.Good (R.cells.field vi fin)

theorem Regime.Carried.stable {R : Regime vi} (h : R.Carried) (hproper : ∀ i w, R.Proper i w) :
    R.Stable := by
  intro cands its nthreads sched mem fin logs _ _ _ _ hgood _ hallow
  exact ⟨fun i => hproper i _, fun hspec => h hspec hallow hgood⟩

section Jacobi
variable {m : CellModel} {nthreads : Nat} {obs : SolveObserver}

theorem jacobiLoop_induct (P : JacobiState → Prop)
    (hround : ∀ st cand, P st → st.frontier.dilate vi.mx vi.my = some cand →
      P (JacobiState.apply vi st m (vi.computeRound nthreads m st.mem cand.enumerate)))
    (hseen : ∀ st, P st → P st.observed) (fuel : Nat) :
    ∀ {st : JacobiState} {r : GsRun}, P st → vi.jacobiLoop nthreads obs m fuel st = some r →
      ∃ st', P st' ∧ r = st'.finish r.outcome ∧ (r.outcome.converged = true →
        st'.frontier.popcount = 0 ∧ r.outcome.cancelled = false) := by
  induction fuel with
  | zero =>
    intro st r h hr
    cases hr
    exact ⟨st, h, rfl, fun hc => ⟨beq_iff_eq.mp hc, rfl⟩⟩
  | succ fuel ih =>
    intro st r h hr
    unfold jacobiLoop at hr
    by_cases hempty : st.frontier.popcount = 0
    · rw [if_pos (beq_iff_eq.mpr hempty)] at hr
      cases hr
      exact ⟨st, h, rfl, fun _ => ⟨hempty, rfl⟩⟩
    rw [if_neg (by simpa using hempty)] at hr
    cases hcand : st.frontier.dilate vi.mx vi.my with
    | none => rw [hcand] at hr; cases hr
    | some cand =>
      rw [hcand] at hr
      have hst := hround st cand h hcand
      simp only at hr
      split at hr
      · split at hr
        · cases hr
          exact ⟨_, hseen _ hst, rfl, fun hc => by cases hc⟩
        · cases hr
          exact ⟨_, hseen _ hst, rfl, fun hc => by cases hc⟩
        · exact ih (hseen _ hst) hr
      · exact ih hst hr

/-- States that lie in the displacement box of a marked one. -/
def boxedBy (vi : ValueIterator) (f : Bitboard2D) : Set Pos :=
  {s | ∃ t, vi.dims.Contains t ∧ PlanarMarked f t ∧ vi.InBox s t}

theorem jacobiLoop_sound (R : Regime vi) (hproper : ∀ i w, R.Proper i w) (hcarried : R.Carried)
    {st₀ : JacobiState} {fuel : Nat} {r : GsRun} (hplanar : Planar vi st₀.frontier)
    (hsound : R.Sound st₀.mem (boxedBy vi st₀.frontier))
    (hnoneSeen : ∀ mem ∈ st₀.seen, ∃ E, R.Sound mem E)
    (hrun : vi.jacobiLoop nthreads obs R.cells fuel st₀ = some r) (hallow : R.Allows r.writes) :
    (∃ E, R.Sound r.mem E ∧
      (r.outcome.converged = true → E = ∅ ∧ r.outcome.cancelled = false)) ∧
      ∀ mem ∈ r.seen, ∃ E, R.Sound mem E := by
  let P : JacobiState → Prop := fun st => R.Allows st.writes →
    Planar vi st.frontier ∧ R.Sound st.mem (boxedBy vi st.frontier) ∧
      ∀ mem ∈ st.seen, ∃ E, R.Sound mem E
  have hround : ∀ st cand, P st → st.frontier.dilate vi.mx vi.my = some cand →
      P (JacobiState.apply vi st R.cells
        (vi.computeRound nthreads R.cells st.mem cand.enumerate)) := by
    intro st cand hP hcand hall
    obtain ⟨hpl, hs, hseen⟩ := hP fun w hw => hall w (List.mem_append_left _ hw)
    obtain ⟨_, hx, hy⟩ := Bitboard2D.dilate_dims hcand
    have hin : ∀ c ∈ cand.enumerate, InMap vi c := by
      rintro ⟨x, y⟩ hc
      obtain ⟨h1, h2, _⟩ := Bitboard2D.mem_enumerate.mp hc
      rw [hx, hpl.2.1] at h1
      rw [hy, hpl.2.2] at h2
      exact ⟨h1, h2⟩
    let changed := ((vi.computeRound nthreads R.cells st.mem cand.enumerate).flatten).filter
      fun e => !e.2.isEmpty
    have hch : changed = (cand.enumerate.map fun c => (c, vi.jacobiCell R.cells st.mem c)).filter
        fun e => !e.2.isEmpty := by
      rw [← computeRound_flatten nthreads]
    have hnew := writes_of_jacobi R.models hin hch
    have hallowed : ∀ w ∈ writesOf changed, vi.dims.Contains w.1 ∧ R.Allowed w.1 w.2 :=
      fun w hw => ⟨(evaluable_iff.mp (hnew w hw).1).1,
        hall w (List.mem_append_right _ hw) (hnew w hw).1 (hnew w hw).2⟩
    obtain ⟨hwell, hspec⟩ := roundSpec_of_jacobi R.models Bitboard2D.nodup_enumerate hin hs.proper
      hch (fun w hw => R.fits _ _ (hallowed w hw).1 (hnew w hw).2 (hallowed w hw).2) rfl
    have hcells : ∀ c ∈ changed.map (·.1), c.1 < vi.dims.nx ∧ c.2 < vi.dims.ny := by
      intro c hc
      obtain ⟨⟨d, moves⟩, hd, rfl⟩ := List.mem_map.mp hc
      exact hwell.inMap d moves hd
    have hcov : CoveredBy vi (activeSet cand.enumerate fun _ => List.range vi.dims.nt)
        (R.cells.field vi st.mem) := by
      intro s hs' hnot
      apply hs.covered s hs'
      rintro ⟨t, ht, hmark, hbox⟩
      have hcs := (evaluable_iff.mp hs').1
      exact hnot (mem_activeSet hcs (hpl.mem_dilate_of_inBox (le_refl _) (le_refl _) hcand hcs ht
        hmark hbox) (List.mem_range.mpr (eq_thetaPos hcs).2.2))
    refine ⟨planar_ofCells hcells,
      ⟨fun i => hproper i _, hcarried hspec hallowed hs.good, ?_⟩, hseen⟩
    intro s hs' hnot
    apply hspec.covered hcov s hs'
    rintro ⟨t, ht, hmoved⟩
    obtain ⟨hct, hbox⟩ := reads_inBox (evaluable_iff.mp hs').1 ht
    refine hnot ⟨t, hct, ?_, hbox⟩
    obtain ⟨c, moves, hc, e, he, rfl⟩ := hmoved
    have hcm := List.mem_map_of_mem (f := fun e : CellMoves => e.1) hc
    exact (Bitboard2D.mem_ofCells hcells (hcells _ hcm).1).mpr hcm
  have hobserved : ∀ st, P st → P st.observed := by
    intro st hP hall
    obtain ⟨hpl, hs, hseen⟩ := hP hall
    refine ⟨hpl, hs, ?_⟩
    intro mem hmem
    cases List.mem_append.mp hmem with
    | inl hold => exact hseen mem hold
    | inr hnew => exact ⟨_, List.mem_singleton.mp hnew ▸ hs⟩
  obtain ⟨st, hP, hr, hconv⟩ := jacobiLoop_induct P hround hobserved fuel
    (fun _ => ⟨hplanar, hsound, hnoneSeen⟩) hrun
  have hwr : r.writes = st.writes := by rw [hr]; rfl
  have hmem : r.mem = st.mem := by rw [hr]; rfl
  obtain ⟨_, hs, hseen⟩ := hP (by rwa [← hwr])
  refine ⟨?_, (show r.seen = st.seen by rw [hr]; rfl) ▸ hseen⟩
  rw [hmem]
  refine ⟨_, hs, ?_⟩
  intro hc
  obtain ⟨hempty, hcancel⟩ := hconv hc
  refine ⟨?_, hcancel⟩
  apply Set.eq_empty_of_forall_notMem
  rintro s ⟨t, _, hmark, _⟩
  exact Bitboard2D.not_mem_of_popcount hempty hmark

end Jacobi

end ValueIteration
