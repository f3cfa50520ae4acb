import ValueIteration.Solvers.InPlace

/-!
# What a converged in-place run leaves behind

A state is settled when value and action are its own raw update, or when it is
unreached and reads unreached states only. From any field, a lawful schedule whose
first frontier holds the reached states settles every state it has to.
-/

set_option autoImplicit false

namespace ValueIteration

namespace ValueIterator

def policy (vi : ValueIterator) : Pos → Option Nat := fun p => (vi.stateAt p).optimalAction

end ValueIterator

/-- Value and action agree with the raw update, or nothing reached was ever read. -/
def Settled (w : World Pos) (v : ValueIterator) (s : Pos) : Prop :=
  (v.costs s, v.policy s) = w.backup w.rawCost v.costs s ∨
    maxCost ≤ v.costs s ∧ ∀ t, w.Reads s t → maxCost ≤ v.costs t

theorem Settled.congr {w : World Pos} {v v' : ValueIterator} {s : Pos}
    (hs : v'.costs s = v.costs s ∧ v'.policy s = v.policy s)
    (hreads : ∀ t, w.Reads s t → v'.costs t = v.costs t) (h : Settled w v s) :
    Settled w v' s := by
  rcases h with h | ⟨hmax, h⟩
  · refine Or.inl ?_
    rw [hs.1, hs.2, h]
    exact (World.backup_congr World.rawCost_local hreads).symm
  · refine Or.inr ⟨by rw [hs.1]; exact hmax, ?_⟩
    intro t ht
    rw [hreads t ht]
    exact h t ht

theorem Settled.eq_backup {w : World Pos} {v : ValueIterator} {s : Pos} (h : Settled w v s)
    (hlt : v.costs s < maxCost) : (v.costs s, v.policy s) = w.backup w.rawCost v.costs s := by
  rcases h with h | ⟨hmax, _⟩
  · exact h
  · omega

section
variable {vi : ValueIterator}

theorem costs_setState {p q : Pos} (hp : vi.dims.Contains p) (hq : vi.dims.Contains q)
    (s : State) : (vi.setState p s).costs q = if q = p then s.totalCost else vi.costs q := by
  simp only [ValueIterator.costs, ValueIterator.stateAt_setState hp hq]
  split <;> rfl

theorem policy_setState {p q : Pos} (hp : vi.dims.Contains p) (hq : vi.dims.Contains q)
    (s : State) : (vi.setState p s).policy q = if q = p then s.optimalAction else vi.policy q := by
  simp only [ValueIterator.policy, ValueIterator.stateAt_setState hp hq]
  split <;> rfl

theorem rawEval_of_not_evaluable {s : Pos} (hs : vi.dims.Contains s)
    (h : vi.world.evaluable s = false) : rawEval vi s = (vi, false) := by
  simp [rawEval, ValueIterator.valueIterationRaw_of_not_evaluable hs h]

theorem rawEval_costs {s q : Pos} (h : vi.world.evaluable s = true) (hq : vi.dims.Contains q) :
    (rawEval vi s).1.costs q =
      if q = s then (vi.world.backup vi.world.rawCost vi.costs s).1 else vi.costs q := by
  have hs := (ValueIterator.evaluable_iff.mp h).1
  simp only [rawEval, ValueIterator.valueIterationRaw_of_evaluable h, costs_setState hs hq,
    State.withUpdate_totalCost]

theorem rawEval_policy {s q : Pos} (h : vi.world.evaluable s = true) (hq : vi.dims.Contains q) :
    (rawEval vi s).1.policy q =
      if q = s then (vi.world.backup vi.world.rawCost vi.costs s).2 else vi.policy q := by
  have hs := (ValueIterator.evaluable_iff.mp h).1
  simp only [rawEval, ValueIterator.valueIterationRaw_of_evaluable h, policy_setState hs hq,
    State.withUpdate_optimalAction]

theorem rawEval_unmoved {s : Pos} (h : vi.world.evaluable s = true)
    (hm : (rawEval vi s).2 = false) :
    (vi.world.backup vi.world.rawCost vi.costs s).1 = vi.costs s := by
  simp only [rawEval, ValueIterator.valueIterationRaw_of_evaluable h, decide_eq_false_iff_not] at hm
  omega

theorem rawEval_sameInputs (s : Pos) : vi.SameInputs (rawEval vi s).1 :=
  ValueIterator.valueIterationRaw_sameInputs s

end

theorem reads_contains {vi : ValueIterator} {s t : Pos} (hs : vi.world.evaluable s = true)
    (h : vi.world.Reads s t) : vi.dims.Contains t :=
  (ValueIterator.reads_inBox (ValueIterator.evaluable_iff.mp hs).1 h).1

theorem rawEval_costs_unmoved {vi : ValueIterator} {s q : Pos} (h : vi.world.evaluable s = true)
    (hm : (rawEval vi s).2 = false) (hq : vi.dims.Contains q) :
    (rawEval vi s).1.costs q = vi.costs q := by
  rw [rawEval_costs h hq]
  split
  · next heq => rw [heq, rawEval_unmoved h hm]
  · rfl

theorem rawEval_settled_unmoved {vi : ValueIterator} {s : Pos} (h : vi.world.evaluable s = true)
    (hm : (rawEval vi s).2 = false) : Settled vi.world (rawEval vi s).1 s := by
  have hs := (ValueIterator.evaluable_iff.mp h).1
  refine Or.inl ?_
  rw [World.backup_congr World.rawCost_local
    fun t ht => rawEval_costs_unmoved h hm (reads_contains h ht),
    rawEval_costs h hs, rawEval_policy h hs, if_pos rfl, if_pos rfl]

/-- The raw update as an active-set system over the inputs of `vi`. -/
def rawSystem (vi : ValueIterator) : ActiveSet.System ValueIterator Pos where
  eval := rawEval
  ok v := vi.SameInputs v
  legal s := vi.dims.Contains s
  dom s := vi.world.evaluable s = true
  reads := vi.world.Reads
  settled v s := Settled vi.world v s
  ok_eval v s hv _ := hv.trans (rawEval_sameInputs s)
  settled_unmoved := by
    intro v s hv hs hm
    rw [← hv.world] at hs ⊢
    exact rawEval_settled_unmoved hs hm
  settled_self := by
    intro v s hv hs hread
    rw [← hv.world] at hs hread ⊢
    have hcs := (ValueIterator.evaluable_iff.mp hs).1
    refine Or.inl ?_
    rw [rawEval_costs hs hcs, rawEval_policy hs hcs, if_pos rfl, if_pos rfl]
    refine World.backup_congr World.rawCost_local ?_
    intro t ht
    rw [rawEval_costs hs (reads_contains hs ht), if_neg]
    rintro rfl
    exact hread ht
  frame_unmoved := by
    intro v s u hv hs hu hm hset
    rw [← hv.world] at hu hset ⊢
    rw [← hv.dims] at hs
    by_cases hev : v.world.evaluable s = true
    · by_cases hus : u = s
      · subst hus
        exact rawEval_settled_unmoved hev hm
      · have hcu := (ValueIterator.evaluable_iff.mp hu).1
        refine hset.congr ⟨rawEval_costs_unmoved hev hm hcu, ?_⟩ ?_
        · rw [rawEval_policy hev hcu, if_neg hus]
        · intro t ht
          exact rawEval_costs_unmoved hev hm (reads_contains hu ht)
    · rw [Bool.not_eq_true] at hev
      rw [rawEval_of_not_evaluable hs hev]
      exact hset
  frame := by
    intro v s u hv hs hu hne hread hset
    rw [← hv.world] at hu hread hset ⊢
    rw [← hv.dims] at hs
    have hcu := (ValueIterator.evaluable_iff.mp hu).1
    by_cases hev : v.world.evaluable s = true
    · refine hset.congr ⟨?_, ?_⟩ ?_
      · rw [rawEval_costs hev hcu, if_neg hne]
      · rw [rawEval_policy hev hcu, if_neg hne]
      · intro t ht
        rw [rawEval_costs hev (reads_contains hu ht), if_neg]
        rintro rfl
        exact hread ht
    · rw [Bool.not_eq_true] at hev
      rw [rawEval_of_not_evaluable hs hev]
      exact hset

/-- What makes a schedule propagate every move. `Marked f t` is the meaning of a
frontier and `wf` an invariant of its representation. -/
structure Schedule.Lawful {F κ : Type} (sch : Schedule F κ) (vi : ValueIterator)
    (wf : F → Prop) (Marked : F → Pos → Prop) : Prop where
  isEmpty_iff : ∀ f t, sch.isEmpty f = true → ¬ Marked f t
  groups_legal : ∀ f gs, wf f → sch.groups f = some gs → ∀ g ∈ gs, ∀ s ∈ g.2, vi.dims.Contains s
  groups_cover : ∀ f gs, wf f → sch.groups f = some gs → ∀ u, vi.world.evaluable u = true →
    ActiveSet.Owed vi.world.Reads {t | vi.dims.Contains t ∧ Marked f t} u →
      u ∈ gs.flatMap (·.2)
  mark_wf : ∀ f gs ks, wf f → sch.groups f = some gs → (∀ k ∈ ks, ∃ g ∈ gs, g.1 = k) →
    wf (sch.mark ks)
  mark_marked : ∀ f gs ks, wf f → sch.groups f = some gs → (∀ k ∈ ks, ∃ g ∈ gs, g.1 = k) →
    ∀ g ∈ gs, g.1 ∈ ks → ∀ t ∈ g.2, Marked (sch.mark ks) t

theorem sweepGroups_keys {σ ι κ : Type} (eval : σ → ι → σ × Bool) (gs : List (κ × List ι)) :
    ∀ v, ∀ k ∈ (ActiveSet.sweepGroups eval gs v).2.2, ∃ g ∈ gs, g.1 = k := by
  induction gs with
  | nil => intro v k hk; simp [ActiveSet.sweepGroups] at hk
  | cons g gs ih =>
    intro v k hk
    simp only [ActiveSet.sweepGroups] at hk
    split at hk
    · rcases List.mem_cons.mp hk with rfl | hk
      · exact ⟨g, List.mem_cons_self, rfl⟩
      · obtain ⟨g', hg', hk⟩ := ih _ k hk
        exact ⟨g', List.mem_cons_of_mem _ hg', hk⟩
    · obtain ⟨g', hg', hk⟩ := ih _ k hk
      exact ⟨g', List.mem_cons_of_mem _ hg', hk⟩

section
variable {F κ : Type} {sch : Schedule F κ} {vi : ValueIterator} {wf : F → Prop}
  {Marked : F → Pos → Prop} {obs : SolveObserver}

/-- The invariant of the loop: unsettled states are owed to a marked one. -/
structure LoopInv (vi : ValueIterator) (wf : F → Prop) (Marked : F → Pos → Prop)
    (st : LoopState F) : Prop where
  inputs : vi.SameInputs st.vi
  wf : wf st.frontier
  covered : (rawSystem vi).Covered st.vi [] {t | vi.dims.Contains t ∧ Marked st.frontier t}

theorem LoopInv.round (law : sch.Lawful vi wf Marked) {st : LoopState F}
    (h : LoopInv vi wf Marked st) {gs : List (κ × List Pos)}
    (hgs : sch.groups st.frontier = some gs) : LoopInv vi wf Marked (st.round sch gs) := by
  have hlegal := law.groups_legal _ _ h.wf hgs
  have hkeys := sweepGroups_keys rawEval gs st.vi
  refine ⟨?_, law.mark_wf _ _ _ h.wf hgs hkeys, ?_⟩
  · exact (ActiveSet.System.ok_sweepGroups gs h.inputs hlegal : (rawSystem vi).ok _)
  · have hcov : (rawSystem vi).Covered st.vi (gs.flatMap (·.2)) ∅ := by
      intro u hu
      rcases h.covered u hu with hset | hmem | howed
      · exact Or.inl hset
      · simp at hmem
      · exact Or.inr (Or.inl (law.groups_cover _ _ h.wf hgs u hu howed))
    refine (hcov.sweepGroups gs h.inputs hlegal).mono (fun u hu => hu) ?_
    rintro t (ht | ⟨g, hg, hk, ht⟩)
    · exact absurd ht (Set.notMem_empty t)
    · exact ⟨hlegal g hg t ht, law.mark_marked _ _ _ h.wf hgs hkeys g hg hk t ht⟩

/-- Starting with every reached state marked, the loop's invariant holds for any field. -/
theorem LoopInv.start {f : F} (hf : wf f)
    (hseed : ∀ t, vi.dims.Contains t → vi.costs t < maxCost → Marked f t) :
    LoopInv vi wf Marked (LoopState.start vi f obs) := by
  refine ⟨ValueIterator.SameInputs.refl vi, hf, ?_⟩
  intro u hu
  have hcu := (ValueIterator.evaluable_iff.mp hu).1
  by_cases hlt : vi.costs u < maxCost
  · exact Or.inr (Or.inr ⟨u, ⟨hcu, hseed u hcu hlt⟩, Or.inr rfl⟩)
  by_cases hread : ∃ t, vi.world.Reads u t ∧ vi.costs t < maxCost
  · obtain ⟨t, ht, hlt⟩ := hread
    have hct := reads_contains hu ht
    exact Or.inr (Or.inr ⟨t, ⟨hct, hseed t hct hlt⟩, Or.inl ht⟩)
  · simp only [not_exists, not_and, not_lt] at hread
    exact Or.inl (Or.inr ⟨not_lt.mp hlt, hread⟩)

/-- A converged run of a lawful schedule has settled every free non-final state. -/
theorem LoopInv.settled (law : sch.Lawful vi wf Marked) {st₀ : LoopState F}
    (h : LoopInv vi wf Marked st₀) {fuel : Nat} {r : InPlaceRun}
    (hrun : frontierLoop sch obs fuel st₀ = some r) (hconv : r.outcome.converged = true) :
    vi.SameInputs r.vi ∧ ∀ s, vi.world.evaluable s = true → Settled vi.world r.vi s := by
  obtain ⟨st, hst, hr, hempty⟩ := frontierLoop_induct (LoopInv vi wf Marked)
    (fun st gs h hgs => h.round law hgs) (fun st h => ⟨h.inputs, h.wf, h.covered⟩) fuel h hrun
  have hvi : r.vi = st.vi := by rw [hr]; rfl
  rw [hvi]
  refine ⟨hst.inputs, ?_⟩
  intro s hs
  rcases hst.covered s hs with hset | hmem | ⟨t, ⟨_, ht⟩, _⟩
  · exact hset
  · simp at hmem
  · exact absurd ht (law.isEmpty_iff _ _ (hempty hconv))

theorem frontierLoop_settled (law : sch.Lawful vi wf Marked) {f : F} (hf : wf f)
    (hseed : ∀ t, vi.dims.Contains t → vi.costs t < maxCost → Marked f t) {fuel : Nat}
    {r : InPlaceRun} (hrun : frontierLoop sch obs fuel (LoopState.start vi f obs) = some r)
    (hconv : r.outcome.converged = true) :
    vi.SameInputs r.vi ∧ ∀ s, vi.world.evaluable s = true → Settled vi.world r.vi s :=
  (LoopInv.start hf hseed).settled law hrun hconv

end

end ValueIteration
