import ValueIteration.Solvers.Ordered
import ValueIteration.Solvers.Parallel

/-!
# Where the ordered sweep lands

Every pass evaluates each of its items once and queues each state at most once, and a state
that is not its own update is queued. So a sweep that runs out of items leaves the clamped
update of its own field. From a start above the blank-start field that no product wraps, that
is the blank-start field itself.
-/

set_option autoImplicit false

namespace ValueIteration

open Async ValueIterator CellModel

/-- What every pass does: each item once, no state queued twice, and none lost that is not
its own update. -/
structure OrderedPass.Complete (vi : ValueIterator) (b : OrderedPass) : Prop where
  once : b.finished.Perm b.items
  distinct : b.items.Nodup
  queued : b.next.Nodup
  kept : ∀ s, vi.world.evaluable s = true →
    (Padded.build vi).cells.field vi b.mem s ≠
      (vi.world.backup vi.world.clampedCost ((Padded.build vi).cells.field vi b.mem) s).1 →
    vi.padIdx s ∈ b.next

section Loop
variable {vi : ValueIterator} {nthreads : Nat} {sched : Nat → Nat → List Nat}
  {joins : Nat → List Nat} {buckets : (Int → Nat) → List Int → List (List Int)}

/-- Between passes exactly the dirty states are items. -/
def OrderedState.Ready (vi : ValueIterator) (st : OrderedState) : Prop :=
  Handshake.Ready (Swept vi) (sweptValue vi) st.mem st.dirty st.items

theorem foldl_update_true (ps : List Int) : ∀ (d : Int → Bool) (q : Int),
    ps.foldl (fun d p => Function.update d p true) d q = (d q || decide (q ∈ ps)) := by
  induction ps with
  | nil =>
    intro d q
    simp
  | cons p ps ih =>
    intro d q
    rw [List.foldl_cons, ih]
    by_cases hq : q = p
    · subst hq
      simp
    · rw [Function.update_of_ne hq]
      simp [hq]

theorem mem_orderedItems {q : Int} : q ∈ vi.orderedItems ↔ Swept vi q := by
  rw [swept_iff, orderedItems, List.mem_filter, List.mem_map]
  simp only [onSweep, Bool.and_assoc, Bool.and_eq_true, decide_eq_true_eq, List.mem_range]
  constructor
  · rintro ⟨⟨i, hi, rfl⟩, hok⟩
    exact ⟨by omega, by omega, hok⟩
  · rintro ⟨h0, hlt, hok⟩
    exact ⟨⟨q.toNat, by omega, by omega⟩, hok⟩

theorem orderedStart_ready (vi : ValueIterator) : vi.orderedStart.Ready vi := by
  have hnodup : vi.orderedItems.Nodup :=
    (List.nodup_range.map fun (i j : Nat) (h : (i : Int) = j) => by omega).filter _
  refine ⟨?_, fun q hq => mem_orderedItems.mp hq, fun q hq => Or.inr (mem_orderedItems.mpr hq)⟩
  intro q
  simp only [orderedStart, foldl_update_true, Bool.false_or]
  by_cases hq : q ∈ vi.orderedItems
  · rw [List.count_eq_one_of_mem hnodup hq, decide_eq_true hq, Bool.toNat_true]
  · rw [List.count_eq_zero.mpr hq, decide_eq_false hq, Bool.toNat_false]

/-- What a pass keeps holds at the end of the loop. -/
theorem orderedLoop_induct {P : OrderedState → Prop}
    (hpass : ∀ st r, P st → vi.orderedPass.pass nthreads (sched st.passes) (joins st.passes)
      (buckets st.mem st.items) st.mem st.dirty = some r →
      P { mem := r.mem
          dirty := r.dirty
          items := r.next
          passes := st.passes + 1
          updates := st.updates + r.finished.length
          trace := st.trace ++ [⟨st.items, r.finished, r.next, r.mem⟩]
          writes := st.writes ++ r.writes }) (fuel : Nat) :
    ∀ {st st' : OrderedState}, P st →
      vi.orderedLoop nthreads sched joins buckets fuel st = some st' → P st' := by
  induction fuel with
  | zero =>
    rintro st st' h hrun
    cases hrun
    exact h
  | succ fuel ih =>
    intro st st' h hrun
    unfold orderedLoop at hrun
    split at hrun
    · cases hrun
      exact h
    · obtain ⟨r, hr, hrest⟩ := Option.bind_eq_some_iff.mp hrun
      exact ih (hpass st r h hr) hrest

/-- A state whose index is settled holds its clamped update. -/
theorem settled_iff {s : Pos} (hs : vi.dims.Contains s) (mem : Int → Nat) :
    sweptValue vi mem (vi.padIdx s) = mem (vi.padIdx s) ↔
      (Padded.build vi).cells.field vi mem s = (vi.world.backup vi.world.clampedCost
        ((Padded.build vi).cells.field vi mem) s).1 := by
  rw [sweptValue_padIdx hs, field_of_contains hs]
  exact eq_comm

/-- Run lemma: every pass is complete and leaves everything ready for the next. -/
theorem orderedLoop_complete (hn : 0 < nthreads)
    (hbuckets : ∀ mem items, (buckets mem items).flatten.Perm items) {fuel : Nat}
    {st : OrderedState}
    (hrun : vi.orderedLoop nthreads sched joins buckets fuel vi.orderedStart = some st) :
    st.Ready vi ∧ ∀ b ∈ st.trace, b.Complete vi := by
  refine orderedLoop_induct (P := fun st => st.Ready vi ∧ ∀ b ∈ st.trace, b.Complete vi) ?_ fuel
    ⟨orderedStart_ready vi, fun _ hb => by cases hb⟩ hrun
  rintro st r ⟨hready, htrace⟩ hpass
  have hperm := hbuckets st.mem st.items
  obtain ⟨honce, hnext⟩ := Handshake.pass_spec (orderedPass_lawful vi) hn (hready.of_perm hperm)
    hpass
  refine ⟨hnext, ?_⟩
  intro b hb
  rcases List.mem_append.mp hb with hb | hb
  · exact htrace b hb
  · obtain rfl := List.mem_singleton.mp hb
    refine ⟨honce.trans hperm, hready.nodup, hnext.nodup, ?_⟩
    intro s hs hne
    refine (hnext.covered (vi.padIdx s) ⟨s, hs, rfl⟩).resolve_left ?_
    exact fun hset => hne ((settled_iff (evaluable_iff.mp hs).1 r.mem).mp hset)

/-- A sweep that runs out of items leaves the clamped update of its own field. -/
theorem orderedEnd_solved {st : OrderedState} (hready : st.Ready vi)
    (hconv : (vi.orderedEnd st).outcome.converged = true) : Solved vi (vi.orderedEnd st).field := by
  have hempty : st.items = [] := List.isEmpty_iff.mp hconv
  have hcovered : CoveredBy vi ∅ ((Padded.build vi).cells.field vi st.mem) := by
    intro s hs _
    have hset := (hready.covered (vi.padIdx s) ⟨s, hs, rfl⟩).resolve_right
      (by rw [hempty]; exact List.not_mem_nil)
    simp only [clampedUpdate, World.operator, hs, if_true]
    exact (settled_iff (evaluable_iff.mp hs).1 st.mem).mp hset
  let run : GsRun := ⟨st.mem, .running 0 0 true, [], []⟩
  have hsound : (paddedRegime vi).Sound run.mem ∅ := ⟨fun _ => trivial, trivial, hcovered⟩
  exact (padded_end rfl hsound rfl).1

end Loop

/-- The field that a blank start converges to. -/
noncomputable def blankField (vi : ValueIterator) : Pos → Nat :=
  GreatestFixed.greatest (exactUpdate vi) vi.costs

/-- A start on the map of `vi` between its blank-start field and `MAX_COST`. -/
structure StartsAbove (vi v : ValueIterator) : Prop where
  map : ∃ u, v = vi.withField u
  finals : ∀ p, vi.dims.Contains p → (vi.stateAt p).finalState = true → v.costs p = 0
  above : ∀ p, vi.dims.Contains p → blankField vi p ≤ v.costs p
  le : ∀ p, vi.dims.Contains p → v.costs p ≤ maxCost

/-- No value that a sweep meets, with the penalty of its state, comes to the product limit
unless it is `MAX_COST`. -/
structure OrderedRun.InRange (v : ValueIterator) (r : OrderedRun) : Prop where
  start : ∀ p, v.dims.Contains p → (v.stateAt p).free = true → v.world.InRange p (v.costs p)
  writes : ∀ w ∈ r.writes, ∀ p, v.dims.Contains p → (v.stateAt p).free = true →
    w.1 = v.padIdx p → v.world.InRange p w.2

/-- The blank-start field with its first minimising actions, which is what every converged
blank start in range returns. -/
structure LandsOn (vi v : ValueIterator) : Prop where
  costs : ∀ p, vi.dims.Contains p → v.costs p = blankField vi p
  policy : ∀ p, vi.dims.Contains p → v.policy p = if vi.world.evaluable p
    then (vi.world.backup vi.world.clampedCost (blankField vi) p).2 else none
  blankRuns : ∀ (k : ParSolver) {nthreads maxIter : Nat} {sched : Nat → List (Nat × Bool)}
    {obs : SolveObserver} {r : ParRun}, 0 < nthreads →
    k.run vi nthreads maxIter sched obs = some r → r.outcome.converged = true → r.InRange vi →
    v = r.field

section Landing
variable {vi v : ValueIterator}

theorem withField_withField (u u' : Pos → Nat × Option Nat) :
    (vi.withField u).withField u' = vi.withField u' := by
  have hcells : Grid.ofFn vi.dims (fun p => ((vi.withField u).stateAt p).withUpdate (u' p)) =
      Grid.ofFn vi.dims (fun p => (vi.stateAt p).withUpdate (u' p)) := by
    apply Grid.ofFn_congr
    intro p hp
    rw [stateAt_withField_of_contains u hp]
    rfl
  have hunfold : (vi.withField u).withField u' =
      ⟨Grid.ofFn vi.dims fun p => ((vi.withField u).stateAt p).withUpdate (u' p), vi.actions,
        vi.wellFormed⟩ := rfl
  rw [hunfold]
  simp only [hcells]
  rfl

/-- A field that is solved on the same map with other values. -/
theorem Solved.of_withField {u : Pos → Nat × Option Nat} {v' : ValueIterator}
    (h : Solved (vi.withField u) v') : Solved vi v' := by
  have hworld : (vi.withField u).world = vi.world := (withField_sameInputs u).world
  obtain ⟨m, mem, opt, hw⟩ := h.written
  refine ⟨⟨m, mem, opt, hw.trans (withField_withField u _)⟩, ?_, ?_⟩
  · rw [← hworld]
    exact h.fixed
  · rw [← hworld]
    exact h.rest

theorem blankField_fixed (hgoal : GoalSet vi) : exactUpdate vi (blankField vi) = blankField vi :=
  GreatestFixed.greatest_isFixed (World.operator_clampedExact_mono vi.costs)
    fun V _ => hgoal.blank.operator_le V

/-- A solved field that never left the descent is the blank-start one. -/
theorem Solved.eq_blankField (hgoal : GoalSet vi) {v : ValueIterator} (h : Solved vi v)
    (hd : Descent vi (vi.onMap v.costs)) : vi.onMap v.costs = blankField vi :=
  (h.isGreatest hgoal hd).1.unique
    (GreatestFixed.isGreatest_fixed (World.operator_clampedExact_mono vi.costs)
      fun V _ => hgoal.blank.operator_le V)

theorem blankField_of_not_evaluable (hgoal : GoalSet vi) {p : Pos}
    (h : ¬ vi.world.evaluable p = true) : blankField vi p = vi.costs p := by
  have hfix := congrFun (blankField_fixed hgoal) p
  simp only [exactUpdate, World.operator, h, Bool.false_eq_true, if_false] at hfix
  exact hfix.symm

theorem World.InRange.le_maxCost {p : Pos} {c : Nat} (h : vi.world.InRange p c) : c ≤ maxCost := by
  rcases h with rfl | hlt
  · exact le_refl _
  · exact (Nat.le_of_lt (lt_of_le_of_lt (Nat.le_add_right _ _) hlt)).trans
      productLimit_lt_maxCost.le

/-- An evaluation that reads words between two fields, none of which wraps, ends between
their exact updates. -/
theorem updateState_between (u : Pos → Nat × Option Nat) (lo hi : Pos → Nat)
    {P : Int → Nat → Prop} (hP : ∀ p, vi.dims.Contains p → (vi.stateAt p).free = true →
      ∀ w, P (vi.padIdx p) w → lo p ≤ w ∧ w ≤ hi p ∧ vi.world.InRange p w)
    (fin : Int → Nat) {i : Int} (hi' : Swept (vi.withField u) i) :
    ((vi.withField u).updateState i).Keeps fin P fun r => ∀ w, r = some w →
      ∃ p, vi.world.evaluable p = true ∧ i = vi.padIdx p ∧
        exactUpdate vi lo p ≤ w ∧ w ≤ exactUpdate vi hi p := by
  have hworld : (vi.withField u).world = vi.world := (withField_sameInputs u).world
  have hmodels : (Padded.build (vi.withField u)).cells.Models (vi.withField u) fun _ _ => True :=
    Padded.models
  obtain ⟨s, hs, rfl⟩ := hi'
  have hcs : (vi.withField u).dims.Contains s := (evaluable_iff.mp hs).1
  rw [updateState_padIdx hcs]
  intro before _
  rw [Prog.keeps_bind]
  have hkeeps := thetaCost_keeps fin hmodels (P := P) (Q := fun t c => P (vi.padIdx t) c)
    (fun _ _ _ => trivial) (fun _ _ _ _ hP => hP) hcs
  rw [hworld] at hs hkeeps
  refine hkeeps.mono ?_
  rintro c ⟨r, hr, rfl⟩ w hw
  have hbounds := hr.bounds world_normed lo hi (by
    intro t ht c hc
    obtain ⟨_, _, _, _, _, hfree, _⟩ := reads_elim ht
    have hmap : vi.dims.Contains s := hcs
    exact hP t (reads_inBox hmap ht).1 hfree c hc)
  refine ⟨s, hs, rfl, ?_⟩
  simp only [exactUpdate, World.operator, hs, if_true]
  split at hw
  · cases hw
  · cases hw
    exact hbounds

/-- What the words of the start and every evaluation have, all words and writes have. -/
theorem orderedLoop_bounded {v : ValueIterator} (Allowed : Int → Nat → Prop)
    {nthreads maxPasses : Nat} (hn : 0 < nthreads)
    {sched : Nat → Nat → List Nat} {joins : Nat → List Nat} {st : OrderedState}
    {P Good : Int → Nat → Prop}
    (hupdate : ∀ fin i, Swept v i →
      (v.updateState i).Keeps fin P fun r => ∀ w, r = some w → Good i w)
    (hgood : ∀ i w, Good i w → Allowed i w → P i w)
    (hstart : ∀ i, P i ((Padded.build v).words i))
    (hrun : v.orderedLoop nthreads sched joins orderedBuckets maxPasses v.orderedStart = some st)
    (hallow : ∀ w ∈ st.writes, Allowed w.1 w.2) :
    (∀ i, P i (st.mem i)) ∧ ∀ w ∈ st.writes, P w.1 w.2 := by
  refine (orderedLoop_induct (P := fun st => st.Ready v ∧
    ((∀ w ∈ st.writes, Allowed w.1 w.2) →
      (∀ i, P i (st.mem i)) ∧ ∀ w ∈ st.writes, P w.1 w.2)) ?_ maxPasses
      ⟨orderedStart_ready v, fun _ => ⟨hstart, fun _ hw => by cases hw⟩⟩ hrun).2 hallow
  rintro st r ⟨hready, hbounds⟩ hpass
  have hbuckets := hready.of_perm (orderedBuckets_perm st.mem st.items)
  refine ⟨(Handshake.pass_spec (orderedPass_lawful v) hn hbuckets hpass).2, ?_⟩
  intro hallow
  obtain ⟨hmem, hwritten⟩ := hbounds fun w hw => hallow w (List.mem_append_left _ hw)
  obtain ⟨hmem', hwritten'⟩ := Handshake.pass_bounded st.mem Good Allowed (orderedPass_lawful v)
    hn hbuckets hpass (hupdate st.mem) hgood hmem
      fun w hw => hallow w (List.mem_append_right _ hw)
  refine ⟨hmem', ?_⟩
  intro w hw
  rcases List.mem_append.mp hw with hw | hw
  · exact hwritten w hw
  · exact hwritten' w hw

/-- The first words are the start, on the map. -/
theorem words_padIdx (u : Pos → Nat × Option Nat) {p : Pos} (hp : vi.dims.Contains p) :
    (Padded.build (vi.withField u)).words (vi.padIdx p) = (vi.withField u).costs p := by
  have hmap : (vi.withField u).dims.Contains p := hp
  exact congrArg Prod.fst (padded_hot hmap)

/-- What every word of a sweep keeps: above the blank-start field and in range. -/
def WordAbove (vi : ValueIterator) (i : Int) (w : Nat) : Prop :=
  ∀ p, vi.dims.Contains p → i = vi.padIdx p → blankField vi p ≤ w ∧
    ((vi.stateAt p).free = true → vi.world.InRange p w) ∧
    (¬ vi.world.evaluable p = true → w = vi.costs p)

theorem above_words (hgoal : GoalSet vi) {u : Pos → Nat × Option Nat}
    (hstart : StartsAbove vi (vi.withField u)) {r : OrderedRun}
    (hrange : r.InRange (vi.withField u)) :
    ∀ i, WordAbove vi i ((Padded.build (vi.withField u)).words i) := by
  rintro i p hp rfl
  have hin : vi.SameInputs (vi.withField u) := withField_sameInputs u
  rw [words_padIdx u hp]
  refine ⟨hstart.above p hp, ?_, ?_⟩
  · intro hfree
    have h := hrange.start p hp ((hin.free p).trans hfree)
    rwa [hin.world] at h
  · intro hev
    by_cases hfin : (vi.stateAt p).finalState = true
    · rw [hstart.finals p hp hfin, hgoal.blank p hp, if_pos hfin]
    · have hbase : vi.costs p = maxCost := by rw [hgoal.blank p hp, if_neg hfin]
      apply le_antisymm
      · rw [hbase]
        exact hstart.le p hp
      · rw [← blankField_of_not_evaluable hgoal hev]
        exact hstart.above p hp

/-- The words of a sweep whose values stay in range never leave the bounds. -/
theorem orderedLoop_above (hgoal : GoalSet vi) {u : Pos → Nat × Option Nat}
    (hstart : StartsAbove vi (vi.withField u)) {nthreads maxPasses : Nat} (hn : 0 < nthreads)
    {sched : Nat → Nat → List Nat} {joins : Nat → List Nat} {st : OrderedState}
    (hrun : (vi.withField u).orderedLoop nthreads sched joins orderedBuckets maxPasses
      (vi.withField u).orderedStart = some st)
    (hrange : ((vi.withField u).orderedEnd st).InRange (vi.withField u)) :
    ∀ i, WordAbove vi i (st.mem i) := by
  have hin : vi.SameInputs (vi.withField u) := withField_sameInputs u
  have hworld := hin.world
  refine (orderedLoop_bounded
    (fun i w => ∀ p, vi.dims.Contains p → (vi.stateAt p).free = true →
      i = vi.padIdx p → vi.world.InRange p w) hn
    (updateState_between u (blankField vi) (fun _ => maxCost) ?_) ?_
    (above_words hgoal hstart hrange) hrun ?_).1
  · intro p hp hfree w hw
    obtain ⟨hlow, hrange, _⟩ := hw p hp rfl
    exact ⟨hlow, (hrange hfree).le_maxCost, hrange hfree⟩
  · rintro i w ⟨p, hev, rfl, hlow, _⟩ hw q hq hpq
    obtain rfl := padIdx_injective (onPad_of_contains (evaluable_iff.mp hev).1)
      (onPad_of_contains hq) hpq
    rw [blankField_fixed hgoal] at hlow
    exact ⟨hlow, fun hfree => hw p hq hfree rfl, fun hnot => absurd hev hnot⟩
  · intro w hw p hp hfree hidx
    rw [← hworld]
    exact hrange.writes w hw p hp ((hin.free p).trans hfree) hidx

/-- A converged sweep from above, with values in range, is on its way down no more. -/
theorem orderedEnd_lands (hgoal : GoalSet vi) {u : Pos → Nat × Option Nat}
    (hstart : StartsAbove vi (vi.withField u)) {nthreads maxPasses : Nat} (hn : 0 < nthreads)
    {sched : Nat → Nat → List Nat} {joins : Nat → List Nat} {st : OrderedState}
    (hrun : (vi.withField u).orderedLoop nthreads sched joins orderedBuckets maxPasses
      (vi.withField u).orderedStart = some st)
    (hsolved : Solved (vi.withField u) ((vi.withField u).orderedEnd st).field)
    (hrange : ((vi.withField u).orderedEnd st).InRange (vi.withField u)) :
    LandsOn vi ((vi.withField u).orderedEnd st).field := by
  let v' := ((vi.withField u).orderedEnd st).field
  have hs : Solved vi v' := hsolved.of_withField
  have habove := orderedLoop_above hgoal hstart hn hrun hrange
  have hcost : ∀ p, vi.dims.Contains p → v'.costs p = st.mem (vi.padIdx p) := by
    intro p hp
    have hmap : (vi.withField u).dims.Contains p := hp
    have hfield : v'.costs p =
        (Padded.build (vi.withField u)).cells.field (vi.withField u) st.mem p :=
      (writeBack_get hmap).1
    rw [hfield, field_of_contains hmap]
    rfl
  have hon : ∀ p, vi.dims.Contains p → vi.onMap v'.costs p = v'.costs p :=
    fun p hp => onMap_of_contains hp
  have hoff : ∀ p, ¬ vi.dims.Contains p → vi.onMap v'.costs p = vi.costs p :=
    fun p hp => if_neg hp
  have hmono : Monotone (exactUpdate vi) := World.operator_clampedExact_mono vi.costs
  have hinRange : ∀ p, vi.dims.Contains p → (vi.stateAt p).free = true →
      vi.world.InRange p (vi.onMap v'.costs p) := by
    intro p hp hfree
    rw [hon p hp, hcost p hp]
    exact (habove _ p hp rfl).2.1 hfree
  have hfixed : ∀ s, vi.world.evaluable s = true →
      vi.onMap v'.costs s =
        (vi.world.backup vi.world.clampedExactCost (vi.onMap v'.costs) s).1 := by
    intro s hev
    have hcs := (evaluable_iff.mp hev).1
    have hexact := World.backup_clamped_eq_exact world_normed (s := s) (V := vi.onMap v'.costs) (by
      intro t ht
      obtain ⟨_, _, _, _, _, hfree, _⟩ := reads_elim ht
      exact hinRange t (reads_inBox hcs ht).1 hfree)
    rw [← hexact, hon s hcs]
    have hfix := congrArg Prod.fst (hs.fixed s hev)
    refine hfix.trans (congrArg Prod.fst (World.backup_congr World.clampedCost_local ?_))
    intro t ht
    exact (hon t (reads_inBox hcs ht).1).symm
  have hrest : ∀ s, ¬ vi.world.evaluable s = true → vi.onMap v'.costs s = vi.costs s := by
    intro s hev
    by_cases hcs : vi.dims.Contains s
    · rw [hon s hcs, hcost s hcs]
      exact (habove _ s hcs rfl).2.2 hev
    · exact hoff s hcs
  have hd : Descent vi (vi.onMap v'.costs) := by
    refine ⟨⟨?_, ?_, ?_⟩, hinRange⟩
    · intro s
      by_cases hev : vi.world.evaluable s = true
      · rw [hfixed s hev, hgoal.blank.evaluable hev]
        exact World.backup_le _ _ _
      · exact (hrest s hev).le
    · intro s
      by_cases hcs : vi.dims.Contains s
      · rw [hon s hcs, hcost s hcs]
        exact (habove _ s hcs rfl).1
      · rw [hoff s hcs]
        exact GreatestFixed.greatest_le_start s
    · intro s
      by_cases hev : vi.world.evaluable s = true
      · simp only [exactUpdate, World.operator, hev, if_true]
        exact (hfixed s hev).ge
      · simp only [exactUpdate, World.operator, hev, Bool.false_eq_true, if_false]
        exact (hrest s hev).ge
  have heq : vi.onMap v'.costs = blankField vi := hs.eq_blankField hgoal hd
  refine ⟨?_, ?_, ?_⟩
  · intro p hp
    rw [← heq]
    exact (hon p hp).symm
  · intro p hp
    rw [← heq]
    exact hs.policy_eq hd hp
  · intro k nthreads' maxIter sched' obs r hn' hrun' hconv hr
    obtain ⟨hs', hd'⟩ := ParSolver.solved hgoal hn' hrun' hconv hr
    exact hs'.unique hgoal hd' hs hd

/-- A field above the start that the exact update does not raise, with no product that wraps,
and `MAX_COST` only where the blank-start field is. -/
structure Ceiling (vi v : ValueIterator) (U : Pos → Nat) : Prop where
  start : ∀ p, vi.dims.Contains p → v.costs p ≤ U p
  steady : ∀ s, vi.world.evaluable s = true → exactUpdate vi U s ≤ U s
  unreached : ∀ p, vi.dims.Contains p → (vi.stateAt p).free = true → U p = maxCost →
    blankField vi p = maxCost
  inRange : ∀ p, vi.dims.Contains p → (vi.stateAt p).free = true → vi.world.InRange p (U p)

theorem Ceiling.inRange_of_between {U : Pos → Nat} (hc : Ceiling vi v U) {p : Pos}
    (hp : vi.dims.Contains p) (hfree : (vi.stateAt p).free = true) {w : Nat}
    (hlow : blankField vi p ≤ w) (hle : w ≤ U p) : vi.world.InRange p w := by
  rcases hc.inRange p hp hfree with hmax | hlt
  · rw [hc.unreached p hp hfree hmax] at hlow
    exact Or.inl (le_antisymm (hle.trans hmax.le) hlow)
  · exact Or.inr (lt_of_le_of_lt (Nat.add_le_add_right hle _) hlt)

/-- Under a ceiling no run meets a product that wraps. -/
theorem Ceiling.run_inRange {U : Pos → Nat} (hgoal : GoalSet vi) (hstart : StartsAbove vi v)
    (hc : Ceiling vi v U) {nthreads maxPasses : Nat} (hn : 0 < nthreads)
    {sched : Nat → Nat → List Nat} {joins : Nat → List Nat} {r : OrderedRun}
    (h : v.orderedSweep nthreads maxPasses sched joins = some r) : r.InRange v := by
  obtain ⟨st, hrun, rfl⟩ := Option.map_eq_some_iff.mp h
  obtain ⟨u, rfl⟩ := hstart.map
  have hin : vi.SameInputs (vi.withField u) := withField_sameInputs u
  have hworld := hin.world
  have hwritten := (orderedLoop_bounded (fun _ _ => True) hn
    (P := fun i w => ∀ p, vi.dims.Contains p → i = vi.padIdx p → blankField vi p ≤ w ∧ w ≤ U p)
    (updateState_between u (blankField vi) U fun p hp hfree w hw =>
      have hbetween := hw p hp rfl
      ⟨hbetween.1, hbetween.2, hc.inRange_of_between hp hfree hbetween.1 hbetween.2⟩)
    (by
      rintro i w ⟨p, hev, rfl, hlow, hle⟩ _ q hq hpq
      obtain rfl := padIdx_injective (onPad_of_contains (evaluable_iff.mp hev).1)
        (onPad_of_contains hq) hpq
      rw [blankField_fixed hgoal] at hlow
      exact ⟨hlow, hle.trans (hc.steady p hev)⟩)
    (by
      rintro i p hp rfl
      rw [words_padIdx u hp]
      exact ⟨hstart.above p hp, hc.start p hp⟩) hrun fun _ _ => trivial).2
  refine ⟨?_, ?_⟩
  · intro p hp hfree
    rw [hworld]
    exact hc.inRange_of_between hp ((hin.free p).symm.trans hfree) (hstart.above p hp)
      (hc.start p hp)
  · intro w hw p hp hfree hidx
    obtain ⟨hlow, hle⟩ := hwritten w hw p hp hidx
    rw [hworld]
    exact hc.inRange_of_between hp ((hin.free p).symm.trans hfree) hlow hle

/-- The blank-start field with a constant on top, `MAX_COST` left alone. -/
noncomputable def lifted (vi : ValueIterator) (k : Nat) : Pos → Nat :=
  fun p => if blankField vi p = maxCost then maxCost else blankField vi p + k

theorem weight_lifted {k : Nat} {row : List (Pos × Nat)}
    (h : ∀ o ∈ row, blankField vi o.1 ≠ maxCost) : vi.world.weight (lifted vi k) row =
      vi.world.weight (blankField vi) row + k * (row.map (·.2)).sum := by
  induction row with
  | nil => simp [World.weight]
  | cons o row ih =>
    have hrow := ih fun o' ho' => h o' (List.mem_cons_of_mem _ ho')
    simp only [World.weight, List.map_cons, List.sum_cons] at hrow ⊢
    rw [hrow, lifted, if_neg (h o List.mem_cons_self)]
    ring

/-- One constant on every value raises no update by more than itself. -/
theorem lifted_steady (hgoal : GoalSet vi) {k : Nat} (hrange : ∀ p, vi.dims.Contains p →
      (vi.stateAt p).free = true →
        blankField vi p = maxCost ∨ blankField vi p + k + vi.world.pen p < productLimit) {s : Pos}
    (hev : vi.world.evaluable s = true) : exactUpdate vi (lifted vi k) s ≤ lifted vi k s := by
  have hfix := congrFun (blankField_fixed hgoal) s
  simp only [exactUpdate, World.operator, hev, if_true] at hfix ⊢
  by_cases hmax : blankField vi s = maxCost
  · rw [lifted, if_pos hmax]
    exact World.backup_le _ _ _
  rw [lifted, if_neg hmax]
  rcases Argmin.argminBelow_fst_mem maxCost
    ((vi.world.choices s).map (vi.world.clampedExactCost (blankField vi))) with hm | hm
  · exact absurd (hfix.symm.trans hm) hmax
  -- The action that attains the blank-start value is no worse under the constant.
  obtain ⟨c, hc, hcost⟩ := List.mem_map.mp hm
  have hval : vi.world.clampedExactCost (blankField vi) c = blankField vi s := hcost.trans hfix
  refine (Argmin.argminBelow_le_mem (List.mem_map_of_mem hc)).trans ?_
  cases c with
  | none => exact absurd hval.symm hmax
  | some row =>
    have hbelow : ∀ o ∈ row, blankField vi o.1 < maxCost := by
      intro o ho
      by_contra hge
      refine hmax (hval.symm.trans (if_pos (List.any_eq_true.mpr ⟨o, ho, ?_⟩)))
      exact decide_eq_true (Nat.le_of_not_lt hge)
    have hlifted : ¬ (row.any fun o => decide (maxCost ≤ lifted vi k o.1)) = true := by
      intro hany
      obtain ⟨o, ho, hge⟩ := List.any_eq_true.mp hany
      have hread : vi.world.Reads s o.1 := ⟨row, hc, o.2, ho⟩
      obtain ⟨_, _, _, _, _, hfree, _⟩ := reads_elim hread
      have hlt := (hrange o.1 (reads_inBox (evaluable_iff.mp hev).1 hread).1 hfree).resolve_left
        (hbelow o ho).ne
      have hle := of_decide_eq_true hge
      rw [lifted, if_neg (hbelow o ho).ne] at hle
      have := productLimit_lt_maxCost
      omega
    have hexact : vi.world.weight (blankField vi) row / probBase = blankField vi s := by
      rw [← hval]
      refine (if_neg ?_).symm
      intro hany
      obtain ⟨o, ho, hge⟩ := List.any_eq_true.mp hany
      exact absurd (hbelow o ho) (Nat.not_lt_of_le (of_decide_eq_true hge))
    calc vi.world.clampedExactCost (lifted vi k) (some row)
        = (vi.world.weight (blankField vi) row + k * (row.map (·.2)).sum) / probBase := by
          rw [World.clampedExactCost, if_neg hlifted, weight_lifted fun o ho => (hbelow o ho).ne]
      _ ≤ (vi.world.weight (blankField vi) row + k * probBase) / probBase := by
          gcongr
          exact world_normed s row hc
      _ = blankField vi s + k := by
          rw [Nat.add_mul_div_right _ _ probBase_pos, hexact]

/-- A start at most a constant above the blank-start field has a ceiling. -/
theorem ceiling_lifted (hgoal : GoalSet vi) {k : Nat}
    (hle : ∀ p, vi.dims.Contains p → v.costs p ≤ lifted vi k p)
    (hrange : ∀ p, vi.dims.Contains p → (vi.stateAt p).free = true →
      blankField vi p = maxCost ∨ blankField vi p + k + vi.world.pen p < productLimit) :
    Ceiling vi v (lifted vi k) := by
  refine ⟨hle, fun s hev => lifted_steady hgoal hrange hev, ?_, ?_⟩
  · intro p hp hfree heq
    by_contra hmax
    rw [lifted, if_neg hmax] at heq
    have := (hrange p hp hfree).resolve_left hmax
    have := productLimit_lt_maxCost
    omega
  · intro p hp hfree
    by_cases hmax : blankField vi p = maxCost
    · exact Or.inl (if_pos hmax)
    · rw [lifted, if_neg hmax]
      exact Or.inr ((hrange p hp hfree).resolve_left hmax)

end Landing

/-- Every pass of every sweep is complete, and a converged sweep leaves the clamped update of
its own field; one that starts above the blank-start field and meets no product that wraps,
as it does under a ceiling, lands on it. -/
theorem orderedSweep_lands {v : ValueIterator} {nthreads maxPasses : Nat} (hn : 0 < nthreads)
    {sched : Nat → Nat → List Nat} {joins : Nat → List Nat} {r : OrderedRun}
    (h : v.orderedSweep nthreads maxPasses sched joins = some r) :
    (∀ b ∈ r.trace, b.Complete v) ∧ (r.outcome.converged = true → Solved v r.field ∧
      ∀ vi, GoalSet vi → StartsAbove vi v → (r.InRange v ∨ ∃ U, Ceiling vi v U) →
        LandsOn vi r.field) := by
  obtain ⟨st, hrun, rfl⟩ := Option.map_eq_some_iff.mp h
  obtain ⟨hready, htrace⟩ := orderedLoop_complete hn orderedBuckets_perm hrun
  refine ⟨htrace, ?_⟩
  intro hconv
  have hsolved := orderedEnd_solved hready hconv
  refine ⟨hsolved, ?_⟩
  intro vi hgoal hstart hcond
  have hrange : ((v.orderedEnd st).InRange v) := by
    rcases hcond with hrange | ⟨U, hceiling⟩
    · exact hrange
    · exact hceiling.run_inRange hgoal hstart hn h
  obtain ⟨u, rfl⟩ := hstart.map
  exact orderedEnd_lands hgoal hstart hn hrun hsolved hrange

/-- A value for the middle column, zero elsewhere. -/
def raised (c : Nat) : Pos → Nat × Option Nat := fun p => (if p.ix = 1 then c else 0, none)

/-- One worker that takes every turn. -/
def turns (n : Nat) : Nat → Nat → List Nat := fun _ _ => List.replicate n 0

/-- The update of the start bounds the blank-start field. -/
theorem blankField_le_update {vi : ValueIterator} (hgoal : GoalSet vi) (s : Pos) :
    blankField vi s ≤ exactUpdate vi vi.costs s := by
  have hmono : Monotone (exactUpdate vi) := World.operator_clampedExact_mono vi.costs
  rw [← blankField_fixed hgoal]
  exact hmono GreatestFixed.greatest_le_start s

/-- A raised start is above if it is above the update of the blank one. -/
theorem startsAbove_raised {vi : ValueIterator} (hgoal : GoalSet vi) {c : Nat}
    (h : ∀ p ∈ vi.dims.all,
      ((vi.stateAt p).finalState = true → (vi.withField (raised c)).costs p = 0) ∧
      exactUpdate vi vi.costs p ≤ (vi.withField (raised c)).costs p ∧
      (vi.withField (raised c)).costs p ≤ maxCost) : StartsAbove vi (vi.withField (raised c)) where
  map := ⟨_, rfl⟩
  finals p hp := (h p (Dims.mem_all.mpr hp)).1
  above p hp := (blankField_le_update hgoal p).trans (h p (Dims.mem_all.mpr hp)).2.1
  le p hp := (h p (Dims.mem_all.mpr hp)).2.2

theorem slipRow_blankField {p : Pos} (hp : slipRow.dims.Contains p) :
    blankField slipRow p = slipRowValues.getD (slipRow.dims.flat p).toNat 0 := by
  obtain ⟨r, hr, hconv, hvalues, hrange⟩ := slipRow_converged .fused
  obtain ⟨hs, hd⟩ := ParSolver.solved slipRow_goalSet (by decide) hr hconv hrange
  rw [← hs.eq_blankField slipRow_goalSet hd, onMap_of_contains hp]
  exact Dims.eq_getD_of_map_all hvalues hp 0

/-- Five penalties above the values of the row wherever those are neither nothing nor
`MAX_COST`. -/
def perched : Pos → Nat × Option Nat := fun p =>
  let v := slipRowValues.getD (slipRow.dims.flat p).toNat 0
  (if v = 0 ∨ v = maxCost then v else v + 5 * probBase, none)

theorem slipRow_startsAbove : StartsAbove slipRow (slipRow.withField perched) := by
  have hall : ∀ p ∈ slipRow.dims.all,
      ((slipRow.stateAt p).finalState = true → (slipRow.withField perched).costs p = 0) ∧
      slipRowValues.getD (slipRow.dims.flat p).toNat 0 ≤ (slipRow.withField perched).costs p ∧
      (slipRow.withField perched).costs p ≤ maxCost := by decide +kernel
  refine ⟨⟨_, rfl⟩, fun p hp => (hall p (Dims.mem_all.mpr hp)).1, ?_,
    fun p hp => (hall p (Dims.mem_all.mpr hp)).2.2⟩
  intro p hp
  rw [slipRow_blankField hp]
  exact (hall p (Dims.mem_all.mpr hp)).2.1

/-- Two workers in turn bring the row down from there. -/
theorem slipRow_lands : ∃ r, (slipRow.withField perched).orderedSweep 2 10
    (fun _ _ => (List.replicate 30 [0, 1]).flatten) (fun _ => [0, 1]) = some r ∧
      LandsOn slipRow r.field := by
  have hrun : (((slipRow.withField perched).orderedSweep 2 10
      (fun _ _ => (List.replicate 30 [0, 1]).flatten) fun _ => [0, 1]).map fun r =>
      r.outcome.converged) = some true := by
    rw [orderedSweep, orderedBuckets_eq]
    decide +kernel
  obtain ⟨r, hr, hval⟩ := Option.map_eq_some_iff.mp hrun
  have hall : ∀ p ∈ slipRow.dims.all, ∀ w : Nat,
      w = slipRowValues.getD (slipRow.dims.flat p).toNat 0 →
      (slipRow.withField perched).costs p ≤ (if w = maxCost then maxCost else w + 5 * probBase) ∧
      (w = maxCost ∨ w + 5 * probBase + slipRow.world.pen p < productLimit) := by
    have hcheck : ∀ p ∈ slipRow.dims.all,
        let w := slipRowValues.getD (slipRow.dims.flat p).toNat 0
        (slipRow.withField perched).costs p ≤ (if w = maxCost then maxCost else w + 5 * probBase) ∧
        (w = maxCost ∨ w + 5 * probBase + slipRow.world.pen p < productLimit) := by
      decide +kernel
    rintro p hp w rfl
    exact hcheck p hp
  have hceiling : Ceiling slipRow (slipRow.withField perched) (lifted slipRow (5 * probBase)) := by
    refine ceiling_lifted slipRow_goalSet ?_ ?_
    · intro p hp
      exact (hall p (Dims.mem_all.mpr hp) _ (slipRow_blankField hp)).1
    · intro p hp _
      exact (hall p (Dims.mem_all.mpr hp) _ (slipRow_blankField hp)).2
  exact ⟨r, hr, ((orderedSweep_lands (by decide) hr).2 hval).2 slipRow slipRow_goalSet
    slipRow_startsAbove (Or.inr ⟨_, hceiling⟩)⟩

/-- The same without the assumption that products stay in range. -/
def OrderedLands : Prop :=
  ∀ {vi v : ValueIterator} {nthreads maxPasses : Nat} {sched : Nat → Nat → List Nat}
    {joins : Nat → List Nat} {r : OrderedRun}, GoalSet vi → StartsAbove vi v → 0 < nthreads →
    v.orderedSweep nthreads maxPasses sched joins = some r → r.outcome.converged = true →
    LandsOn vi r.field

/-- A cell between a cheap goal, reached in half of the cases, and a dear one. -/
def betweenGoals : ValueIterator :=
  ⟨⟨⟨3, 1, 1⟩, [goalState probBase, freeState, goalState (4 * probBase)], rfl⟩,
    [stepAction 1 0, ⟨[[⟨0, 0, 0, 131072⟩, ⟨-1, 0, 0, 131072⟩]]⟩], by decide +kernel⟩

theorem betweenGoals_goalSet : GoalSet betweenGoals := by
  have hall : ∀ p ∈ betweenGoals.dims.all,
      betweenGoals.costs p = (if (betweenGoals.stateAt p).finalState then 0 else maxCost) ∧
      ((betweenGoals.stateAt p).finalState = true → (betweenGoals.stateAt p).free = true) := by
    decide +kernel
  exact ⟨fun p hp => (hall p (Dims.mem_all.mpr hp)).1, fun p hp => (hall p (Dims.mem_all.mpr hp)).2⟩

/-- A blank start settles at `2 * PROB_BASE`. -/
theorem betweenGoals_run : ∃ r,
    ParSolver.par.run betweenGoals 1 40 loneWorker nullObserver = some r ∧ r.outcome.converged = true ∧ r.InRange betweenGoals ∧
    r.field.costs ⟨1, 0, 0⟩ = 2 * probBase := by
  have hrun : ((ParSolver.par.run betweenGoals 1 40 loneWorker nullObserver).map fun r =>
      (r.outcome.converged, r.writes.all fun w => w.2 + betweenGoals.world.pen w.1 < productLimit,
        r.field.costs ⟨1, 0, 0⟩)) = some (true, true, 2 * probBase) := by decide +kernel
  obtain ⟨r, hr, hval⟩ := Option.map_eq_some_iff.mp hrun
  simp only [Prod.mk.injEq] at hval
  have hfinals : ∀ p ∈ betweenGoals.dims.all, (betweenGoals.stateAt p).finalState = true →
      betweenGoals.costs p + betweenGoals.world.pen p < productLimit := by decide +kernel
  refine ⟨r, hr, hval.1, ⟨?_, ?_⟩, hval.2.2⟩
  · exact fun p hp hfin => Or.inr (hfinals p (Dims.mem_all.mpr hp) hfin)
  · exact fun w hw => Or.inr (of_decide_eq_true (List.all_eq_true.mp hval.2.1 w hw))

/-- From `2 ^ 47` the first product wraps, and the sweep comes up to another fixed point, one
unit below. -/
theorem not_orderedLands : ¬ OrderedLands := by
  intro h
  have hrun : (((betweenGoals.withField (raised (2 ^ 47))).orderedSweep 1 40 (turns 30)
      fun _ => [0]).map fun r => (r.outcome.converged, r.field.costs ⟨1, 0, 0⟩)) =
      some (true, 2 * probBase - 1) := by
    rw [orderedSweep, orderedBuckets_eq]
    decide +kernel
  obtain ⟨r, hr, hval⟩ := Option.map_eq_some_iff.mp hrun
  simp only [Prod.mk.injEq] at hval
  obtain ⟨r', hr', hconv', hrange', hval'⟩ := betweenGoals_run
  have hlands := h betweenGoals_goalSet
    (startsAbove_raised betweenGoals_goalSet (by decide +kernel)) Nat.one_pos hr hval.1
  have hsame := hlands.blankRuns .par Nat.one_pos hr' hconv' hrange'
  rw [← hsame, hval.2] at hval'
  exact absurd hval' (by decide)

end ValueIteration
