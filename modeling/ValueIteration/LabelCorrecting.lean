import ValueIteration.Conformance
import ValueIteration.Solvers.Priority

/-!
# The label-correcting priority solver

An evaluation writes its value whether it fell or rose, but only a lower label is
pushed. A raised label makes its old entry stale, so whoever still waited for that
entry is never told. Where no evaluation of a set closed under reading wraps below the
exact value and none raises a label that is still on the heap, the converged field is the
exact value there.
-/

set_option autoImplicit false

namespace ValueIteration

open ValueIterator

/-- An evaluation that loses nothing: no action wraps below the exact value, and a
label that rises is not on the heap. -/
structure Relaxation.Sound (vi : ValueIterator) (e : Relaxation) : Prop where
  above : ∀ a ∈ vi.actions, vi.exactValue e.state ≤ e.vi.actionCostRaw a e.state
  settled : e.vi.costs e.state < (rawEval e.vi e.state).1.costs e.state →
    e.vi.label e.state ∉ e.heap

/-- `s` is the update of a field that is current except at outcomes it still waits
for, or was never evaluated and every reached outcome is still to come. -/
def Behind (vi v : ValueIterator) (waits : Pos → Prop) (s : Pos) : Prop :=
  (∃ U : Pos → Nat, (v.costs s, v.policy s) = vi.world.backup vi.world.rawCost U s ∧
    ∀ t, vi.world.Reads s t → vi.exactValue t ≤ U t ∧ (U t ≤ v.costs t ∨ waits t)) ∨
  (v.costs s = maxCost ∧ ∀ t, vi.world.Reads s t → maxCost ≤ v.costs t ∨ waits t)

section
variable {vi : ValueIterator} {S : Set Pos}

theorem Behind.mono {v v' : ValueIterator} {waits waits' : Pos → Prop} {s : Pos}
    (h : Behind vi v waits s) (hcost : v'.costs s = v.costs s) (hpolicy : v'.policy s = v.policy s)
    (hreads : ∀ t, vi.world.Reads s t →
      (v.costs t ≤ v'.costs t ∨ waits' t) ∧ (waits t → waits' t)) :
    Behind vi v' waits' s := by
  rcases h with ⟨U, heq, hU⟩ | ⟨hmax, hread⟩
  · refine Or.inl ⟨U, by rw [hcost, hpolicy, heq], ?_⟩
    intro t ht
    obtain ⟨hlow, hle | hwait⟩ := hU t ht
    · rcases (hreads t ht).1 with h | h
      · exact ⟨hlow, Or.inl (hle.trans h)⟩
      · exact ⟨hlow, Or.inr h⟩
    · exact ⟨hlow, Or.inr ((hreads t ht).2 hwait)⟩
  · refine Or.inr ⟨hcost.trans hmax, ?_⟩
    intro t ht
    rcases hread t ht with hle | hwait
    · exact (hreads t ht).1.imp_left hle.trans
    · exact Or.inr ((hreads t ht).2 hwait)

/-- What a label-correcting run keeps on a set closed under reading; `todo s t` says that
the loop over the predecessors of `t` has yet to come to `s`. -/
structure PrioInv (vi : ValueIterator) (S : Set Pos) (todo : Pos → Pos → Prop)
    (st : PrioState) : Prop where
  closed : ∀ s ∈ S, vi.world.evaluable s = true → ∀ t, vi.world.Reads s t → t ∈ S
  within : Within vi st.vi
  low : ∀ t ∈ S, vi.dims.Contains t → vi.exactValue t ≤ st.vi.costs t
  behind : ∀ s ∈ S, vi.world.evaluable s = true →
    Behind vi st.vi (fun t => st.vi.label t ∈ st.heap ∨ todo s t) s

/-- The states of a list of displacements that the loop has yet to come to. -/
def Todo (sStar : Pos) (ds : List (Int ×ₗ Int ×ₗ Int)) (s t : Pos) : Prop :=
  t = sStar ∧ ∃ d ∈ ds, predPos sStar d = s

theorem index_congr {v : ValueIterator} (h : vi.SameInputs v) (p : Pos) : v.index p = vi.index p := by
  rw [index, index, h.dims]

/-- An evaluation of a state that waits for nothing else. -/
theorem PrioInv.eval {todo todo' : Pos → Pos → Prop} {st : PrioState} {p : Pos}
    (h : PrioInv vi S todo st) (hev : vi.world.evaluable p = true)
    (hsound : p ∈ S → Relaxation.Sound vi ⟨st.vi, st.heap, p⟩)
    (htodo : ∀ s t, s ≠ p → todo s t → todo' s t) {st' : PrioState}
    (hvi : st'.vi = (rawEval st.vi p).1) (hkeep : ∀ e, e ∈ st.heap → e ∈ st'.heap)
    (hpush : st'.vi.costs p < st.vi.costs p → st'.vi.label p ∈ st'.heap) :
    PrioInv vi S todo' st' := by
  have hp := (evaluable_iff.mp hev).1
  have hev' : st.vi.world.evaluable p = true := by
    rw [h.within.inputs.world]
    exact hev
  have hcosts {q : Pos} (hq : vi.dims.Contains q) : st'.vi.costs q =
      if q = p then (vi.world.backup vi.world.rawCost st.vi.costs p).1 else st.vi.costs q := by
    rw [hvi, rawEval_costs hev' (h.within.inputs.dims ▸ hq), h.within.inputs.world]
  have hpolicy {q : Pos} (hq : vi.dims.Contains q) : st'.vi.policy q =
      if q = p then (vi.world.backup vi.world.rawCost st.vi.costs p).2 else st.vi.policy q := by
    rw [hvi, rawEval_policy hev' (h.within.inputs.dims ▸ hq), h.within.inputs.world]
  have hinputs : vi.SameInputs st'.vi := by
    rw [hvi]
    exact h.within.inputs.trans (rawEval_sameInputs p)
  have hlabel {q : Pos} (hq : st'.vi.costs q = st.vi.costs q) : st'.vi.label q = st.vi.label q := by
    rw [label, label, hq, index_congr hinputs, index_congr h.within.inputs]
  -- a value that fell is on the heap
  have hfell : ∀ t, vi.dims.Contains t →
      st.vi.costs t ≤ st'.vi.costs t ∨ st'.vi.label t ∈ st'.heap := by
    intro t ht
    by_cases htp : t = p
    · rw [htp]
      rcases Nat.lt_or_ge (st'.vi.costs p) (st.vi.costs p) with hlt | hge
      · exact Or.inr (hpush hlt)
      · exact Or.inl hge
    · rw [hcosts ht, if_neg htp]
      exact Or.inl (le_refl _)
  have hwait : ∀ t ∈ S, vi.dims.Contains t → st.vi.label t ∈ st.heap →
      st'.vi.label t ∈ st'.heap := by
    intro t htS ht hmem
    by_cases htp : t = p
    · rw [htp] at htS hmem ⊢
      rcases Nat.lt_trichotomy (st'.vi.costs p) (st.vi.costs p) with hlt | heq | hgt
      · exact hpush hlt
      · rw [hlabel heq]
        exact hkeep _ hmem
      · exact absurd hmem ((hsound htS).settled (by rw [← hvi]; exact hgt))
    · rw [hlabel (by rw [hcosts ht, if_neg htp])]
      exact hkeep _ hmem
  refine ⟨h.closed, ?_, ?_, ?_⟩
  · rw [hvi]
    exact h.within.eval hp
  · rw [hvi]
    exact exactValue_le_eval h.within h.low (fun hpS _ => (hsound hpS).above) hp
  · intro s hsS hs
    by_cases hsp : s = p
    · rw [hsp] at hsS hs ⊢
      refine Or.inl ⟨st.vi.costs, ?_, ?_⟩
      · rw [hcosts hp, hpolicy hp, if_pos rfl, if_pos rfl]
      · intro t ht
        have hct := reads_contains hs ht
        exact ⟨h.low t (h.closed p hsS hs t ht) hct, (hfell t hct).imp_right Or.inl⟩
    · have hcs := (evaluable_iff.mp hs).1
      refine (h.behind s hsS hs).mono (by rw [hcosts hcs, if_neg hsp])
        (by rw [hpolicy hcs, if_neg hsp]) ?_
      intro t ht
      have hct := reads_contains hs ht
      refine ⟨(hfell t hct).imp_right Or.inl, ?_⟩
      rintro (hmem | hto)
      · exact Or.inl (hwait t (h.closed s hsS hs t ht) hct hmem)
      · exact Or.inr (htodo s t hsp hto)

theorem PrioInv.todo {todo todo' : Pos → Pos → Prop} {st : PrioState}
    (h : PrioInv vi S todo st)
    (htodo : ∀ s t, vi.world.evaluable s = true → todo s t → todo' s t) :
    PrioInv vi S todo' st := by
  refine ⟨h.closed, h.within, h.low, ?_⟩
  intro s hsS hs
  refine (h.behind s hsS hs).mono rfl rfl ?_
  intro t _
  exact ⟨Or.inl (le_refl _), Or.imp_right (htodo s t hs)⟩

/-- Step lemma of the loop over the predecessors. -/
theorem PrioInv.relax {sStar : Pos} {d : Int ×ₗ Int ×ₗ Int} {ds : List (Int ×ₗ Int ×ₗ Int)}
    {st : PrioState} (h : PrioInv vi S (Todo sStar (d :: ds)) st)
    (hd : 0 ≤ (predPos sStar d).it ∧ (predPos sStar d).it < vi.dims.nt)
    (hsound : ∀ e ∈ (st.relax false sStar d).relaxed, e.state ∈ S → e.Sound vi) :
    PrioInv vi S (Todo sStar ds) (st.relax false sStar d) := by
  have hdrop : ∀ s t, s ≠ predPos sStar d → Todo sStar (d :: ds) s t → Todo sStar ds s t := by
    rintro s t hne ⟨rfl, d', hd', rfl⟩
    rcases List.mem_cons.mp hd' with rfl | hd'
    · exact absurd rfl hne
    · exact ⟨rfl, d', hd', rfl⟩
  rw [PrioState.relax_eq (h.within.inputs.dims ▸ hd), h.within.inputs.world] at hsound ⊢
  split
  · next hev =>
    rw [if_pos hev] at hsound
    refine h.eval hev (hsound ⟨st.vi, st.heap, predPos sStar d⟩ ?_) hdrop PrioState.relaxAt_vi
      (fun e => PrioState.mem_relaxAt) PrioState.label_mem_relaxAt
    rw [PrioState.relaxAt_relaxed]
    exact List.mem_append_right _ List.mem_cons_self
  · next hev =>
    refine h.todo ?_
    intro s t hs
    refine hdrop s t ?_
    rintro rfl
    exact hev hs

/-- Run lemma of the loop over the predecessors. -/
theorem PrioInv.foldl {sStar : Pos} (ds : List (Int ×ₗ Int ×ₗ Int)) : ∀ {st : PrioState},
    (∀ d ∈ ds, 0 ≤ (predPos sStar d).it ∧ (predPos sStar d).it < vi.dims.nt) →
    PrioInv vi S (Todo sStar ds) st →
    (∀ e ∈ (ds.foldl (PrioState.relax false sStar) st).relaxed, e.state ∈ S → e.Sound vi) →
    PrioInv vi S (Todo sStar []) (ds.foldl (PrioState.relax false sStar) st) := by
  induction ds with
  | nil => intro st _ h _; exact h
  | cons d ds ih =>
    intro st hds h hsound
    refine ih (fun d' hd' => hds d' (List.mem_cons_of_mem _ hd')) ?_ hsound
    exact h.relax (hds d List.mem_cons_self) fun e he =>
      hsound e (relaxed_foldl sStar ds _ he)

/-- Nothing is left to do between two pops. -/
def NoTodo : Pos → Pos → Prop := fun _ _ => False

theorem PrioInv.of_same {todo : Pos → Pos → Prop} {st st' : PrioState}
    (h : PrioInv vi S todo st) (hvi : st'.vi = st.vi) (hheap : st'.heap = st.heap) :
    PrioInv vi S todo st' := by
  refine ⟨h.closed, hvi ▸ h.within, hvi ▸ h.low, ?_⟩
  intro s hsS hs
  rw [hvi, hheap]
  exact h.behind s hsS hs

/-- Step lemma of the main loop: `top` was popped from the heap, `heap` is the rest. -/
theorem PrioInv.visit {st : PrioState} (h : PrioInv vi S NoTodo st) {top : Nat ×ₗ Nat}
    {heap : LabelHeap} (hpop : st.heap.pop = some (top, heap)) {st' : PrioState}
    (hvi : st'.vi = st.vi) (hheap : st'.heap = heap)
    (hsound : ∀ e ∈ (st'.visit vi.buildRevTheta false (ofLex top).1 (ofLex top).2).relaxed,
      e.state ∈ S → e.Sound vi) :
    PrioInv vi S NoTodo (st'.visit vi.buildRevTheta false (ofLex top).1 (ofLex top).2) := by
  have hinputs := h.within.inputs
  -- the entry of `t` is either the popped one or still there
  have hentry : ∀ t, vi.dims.Contains t → st.vi.label t ∈ st.heap →
      st'.vi.label t ∈ heap ∨
        t = vi.dims.unflat (ofLex top).2 ∧ (ofLex top).1 = st.vi.costs t := by
    intro t ht hmem
    rcases (MinHeap.mem_iff_of_pop hpop).mp hmem with heq | hrest
    · refine Or.inr ?_
      rw [← heq]
      refine ⟨?_, rfl⟩
      rw [label, ofLex_toLex, index_congr hinputs, index, Dims.unflat_flat ht]
    · exact Or.inl (by rw [hvi]; exact hrest)
  have hdims : st'.vi.dims = vi.dims := by rw [hvi, hinputs.dims]
  have hback := h.behind
  rcases st'.visit_cases vi.buildRevTheta (ofLex top).1 (ofLex top).2 with
    ⟨hstale, heq⟩ | ⟨_, st₁, hvi₁, hheap₁, _, heq⟩
  · rw [heq]
    rw [hdims, hvi] at hstale
    refine ⟨h.closed, hvi ▸ h.within, hvi ▸ h.low, ?_⟩
    intro s hsS hs
    refine (hback s hsS hs).mono (by rw [hvi]) (by rw [hvi]) ?_
    intro t ht
    refine ⟨Or.inl (by rw [hvi]), ?_⟩
    rintro (hmem | hto)
    · rcases hentry t (reads_contains hs ht) hmem with hrest | ⟨rfl, hlab⟩
      · rw [hheap]
        exact Or.inl hrest
      · exact absurd hlab hstale
    · exact Or.inr hto
  · rw [heq] at hsound ⊢
    rw [hdims] at hsound heq ⊢
    have hstart : PrioInv vi S (Todo (vi.dims.unflat (ofLex top).2)
        (vi.buildRevTheta.getD (vi.dims.unflat (ofLex top).2).it.toNat [])) st₁ := by
      refine ⟨h.closed, by rw [hvi₁, hvi]; exact h.within, by rw [hvi₁, hvi]; exact h.low, ?_⟩
      intro s hsS hs
      refine (hback s hsS hs).mono (by rw [hvi₁, hvi]) (by rw [hvi₁, hvi]) ?_
      intro t ht
      refine ⟨Or.inl (by rw [hvi₁, hvi]), ?_⟩
      rintro (hmem | hto)
      · rcases hentry t (reads_contains hs ht) hmem with hrest | ⟨rfl, _⟩
        · rw [hheap₁, hheap, hvi₁]
          exact Or.inl hrest
        · exact Or.inr ⟨rfl, exists_pred_of_reads hs ht⟩
      · exact absurd hto id
    refine (hstart.foldl _ (fun d hd => heading_of_mem_rev hd _) hsound).todo ?_
    rintro s t _ ⟨_, d, hd, _⟩
    exact absurd hd List.not_mem_nil

/-- Run lemma: a converged loop ends with an empty heap and the invariant. -/
theorem PrioInv.loop {obs : SolveObserver} {stride : Nat} (fuel : Nat) {st : PrioState}
    (h : PrioInv vi S NoTodo st)
    (hconv : (prioLoop vi.buildRevTheta false obs stride fuel st).stats.converged = true)
    (hsound : ∀ e ∈ (prioLoop vi.buildRevTheta false obs stride fuel st).relaxed,
      e.state ∈ S → e.Sound vi) :
    ∃ st' : PrioState, PrioInv vi S NoTodo st' ∧ st'.heap.pop = none ∧
      (prioLoop vi.buildRevTheta false obs stride fuel st).vi = st'.vi :=
  prioLoop_induct (fun _ _ _ _ hst hpop hvi hheap _ hall => hst.visit hpop hvi hheap hall)
    fuel h hconv hsound

theorem PrioInv.start (hblank : vi.Blank) (obs : SolveObserver)
    (hclosed : ∀ s ∈ S, vi.world.evaluable s = true → ∀ t, vi.world.Reads s t → t ∈ S) :
    PrioInv vi S NoTodo (vi.prioStart false obs) := by
  refine ⟨hclosed, Within.start hblank, fun t _ _ => exactValue_le_start t, ?_⟩
  intro s _ hs
  refine Or.inr ⟨hblank.evaluable hs, ?_⟩
  intro t ht
  rcases Nat.lt_or_ge (vi.costs t) maxCost with hlt | hge
  · exact Or.inr (Or.inl (mem_seedHeap_iff.mpr ⟨t, reads_contains hs ht, hlt, rfl⟩))
  · exact Or.inl hge

/-- With nothing left to wait for, the field is the exact value and its own update. -/
theorem Behind.exact {v : ValueIterator} (hblank : vi.Blank) (hwithin : Within vi v)
    (hclosed : ∀ s ∈ S, vi.world.evaluable s = true → ∀ t, vi.world.Reads s t → t ∈ S)
    (hlow : ∀ t ∈ S, vi.dims.Contains t → vi.exactValue t ≤ v.costs t)
    (h : ∀ s ∈ S, vi.world.evaluable s = true → Behind vi v (fun _ => False) s) :
    (∀ s ∈ S, vi.dims.Contains s → v.costs s = vi.exactValue s) ∧
    ∀ s ∈ S, vi.world.evaluable s = true → v.costs s < maxCost →
      (v.costs s, v.policy s) = vi.world.backup vi.world.rawCost v.costs s := by
  have hpost : ∀ s ∈ S, vi.world.evaluable s = true →
      v.costs s ≤ (vi.world.backup vi.world.exactCost v.costs s).1 := by
    intro s hsS hs
    rcases h s hsS hs with ⟨U, heq, hU⟩ | ⟨hmax, hread⟩
    · have hval : v.costs s = (vi.world.backup vi.world.rawCost U s).1 := congrArg Prod.fst heq
      rw [hval]
      refine World.backup_mono s ?_
      intro c hc
      refine (World.rawCost_le_exactCost U c).trans (World.exactCost_mono_on ?_)
      rintro row rfl ⟨t, p⟩ ho
      exact (hU t ⟨row, hc, p, ho⟩).2.resolve_right id
    · exact (Settled.le_exactBackup (Or.inr ⟨hmax.ge, fun t ht => (hread t ht).resolve_right id⟩)
        hwithin hs)
  have hexact : ∀ s ∈ S, vi.dims.Contains s → v.costs s = vi.exactValue s := by
    intro s hsS hs
    refine le_antisymm ?_ (hlow s hsS hs)
    exact postFixedOn_le_exactValue hclosed hpost hwithin hblank s hsS hs
  refine ⟨hexact, ?_⟩
  intro s hsS hs hlt
  rcases h s hsS hs with ⟨U, heq, hU⟩ | ⟨hmax, _⟩
  · rw [heq]
    refine World.backup_congr World.rawCost_local ?_
    intro t ht
    have hle := (hU t ht).2.resolve_right id
    have hct := reads_contains hs ht
    exact le_antisymm hle ((hexact t (hclosed s hsS hs t ht) hct).le.trans (hU t ht).1)
  · omega

/-- Where neither run wraps below the exact value and no label on the heap is raised on what
leads below the threshold, and the reference stops quietly, the converged label-correcting
field agrees with the reference on the states below the threshold, in value and in action. -/
theorem labelCorrecting_agrees {obs : SolveObserver} {maxIter maxIter' : Nat} {r : PrioRun}
    {r' : InPlaceRun} (hblank : vi.Blank) (hrun : vi.prioritySolve maxIter false = r)
    (hconv : r.stats.converged = true) (href : vi.originalSolve maxIter' obs = r')
    (hconv' : r'.outcome.converged = true)
    (hsound : ∀ e ∈ r.relaxed, e.state ∈ BelowReach vi (beforeLastSweep vi r') → e.Sound vi)
    (hsteps' : StepsAboveOn vi (BelowReach vi (beforeLastSweep vi r')) vi r'.evals)
    (hquiet : QuietStop vi r') :
    ∀ s, vi.dims.Contains s → r'.vi.costs s < reachThresh →
      r.vi.costs s = r'.vi.costs s ∧ r.vi.policy s = r'.vi.policy s := by
  subst hrun
  have hclosed : ∀ s ∈ BelowReach vi (beforeLastSweep vi r'), vi.world.evaluable s = true →
      ∀ t, vi.world.Reads s t → t ∈ BelowReach vi (beforeLastSweep vi r') :=
    fun s hs hev t ht => belowReach_closed hs hev ht
  obtain ⟨st, h, hpop, hvi⟩ := (PrioInv.start hblank nullObserver hclosed).loop _ hconv hsound
  have hbehind : ∀ s ∈ BelowReach vi (beforeLastSweep vi r'), vi.world.evaluable s = true →
      Behind vi st.vi (fun _ => False) s := by
    intro s hsS hs
    refine (h.behind s hsS hs).mono rfl rfl ?_
    intro t _
    refine ⟨Or.inl (le_refl _), ?_⟩
    rintro (hmem | hto)
    · exact MinHeap.not_mem_of_pop_none hpop _ hmem
    · exact hto
  obtain ⟨hexact, hheld⟩ := Behind.exact hblank h.within hclosed h.low hbehind
  rw [prioritySolve, prioritySolveInner, hvi]
  exact agrees_of_exactValue hblank href hconv' hsteps' hquiet h.within
    (fun s hs => hexact s hs (belowReach_contains hs)) hheld

end

/-- On the row no evaluation costs less than the final values or raises a label. -/
theorem slipRow_sound : ∀ e ∈ (slipRow.prioritySolve 100 false).relaxed, e.Sound slipRow := by
  have hall : ∀ e ∈ (slipRow.prioritySolve 100 false).relaxed,
      e.state ∈ slipRow.dims.all ∧
      (∀ a ∈ slipRow.actions, slipRowValues.getD (slipRow.dims.flat e.state).toNat 0 ≤
        e.vi.actionCostRaw a e.state) ∧
      (rawEval e.vi e.state).1.costs e.state ≤ e.vi.costs e.state := by
    decide +kernel
  intro e he
  obtain ⟨hmem, hcost, hfell⟩ := hall e he
  refine ⟨?_, ?_⟩
  · intro a ha
    exact (slipRow_exactValue_le (Dims.mem_all.mp hmem)).trans (hcost a ha)
  · intro hrise
    omega

theorem slipRow_labelCorrecting : ∃ r, slipRow.originalSolve 10 nullObserver = r ∧
    slipRow.dims.all.map (slipRow.prioritySolve 100 false).vi.costs = slipRowValues ∧
    ∀ s, slipRow.dims.Contains s → r.vi.costs s < reachThresh →
      (slipRow.prioritySolve 100 false).vi.costs s = r.vi.costs s ∧
        (slipRow.prioritySolve 100 false).vi.policy s = r.vi.policy s := by
  obtain ⟨r, hr, hconv, _⟩ := slipRow_reference
  exact ⟨r, hr, by decide +kernel, labelCorrecting_agrees slipRow_blank rfl (by decide +kernel) hr
    hconv (fun e he _ => slipRow_sound e he) ((slipRow_reference_stepsAbove hr).on _)
    (slipRow_quietStop hr)⟩

/-- A goal above the second cell and a cheaper one at the end of its row. The second
action leads to either, with a probability whose share of `MAX_COST` wraps to little. -/
def raisedLabel : ValueIterator :=
  ⟨⟨⟨5, 2, 1⟩, [wallState, goalState (5000 * probBase), wallState, wallState, wallState,
      freeState, freeState, wallState, freeState, goalState (4000 * probBase)], rfl⟩,
    [stepAction 1 0, ⟨[[⟨2, 0, 0, 70369⟩, ⟨0, -1, 0, probBase - 70369⟩]]⟩], by decide⟩

theorem raisedLabel_blank : raisedLabel.Blank := by
  have hall : ∀ p ∈ raisedLabel.dims.all, raisedLabel.costs p =
      if (raisedLabel.stateAt p).finalState then 0 else maxCost := by decide +kernel
  intro p hp
  exact hall p (Dims.mem_all.mpr hp)

/-- The first cell of the row: the entry of its neighbour went stale when the label rose,
so it was never evaluated. -/
theorem raisedLabel_runs :
    (fun r : PrioRun => (r.stats.converged, r.vi.costs ⟨0, 1, 0⟩))
        (raisedLabel.prioritySolve 10 false) = (true, maxCost) ∧
      (fun r : InPlaceRun => (r.outcome.converged, r.vi.costs ⟨0, 1, 0⟩))
        (raisedLabel.originalSolve 10 nullObserver) = (true, 1240683513) := by
  decide +kernel

/-- A converged label-correcting run may disagree below the threshold. -/
theorem not_labelCorrecting_agrees : ¬ ∀ vi : ValueIterator, vi.Blank →
    (∀ p, vi.dims.Contains p → probBase ≤ (vi.stateAt p).penalty) →
    ∀ (maxIter maxIter' : Nat) (obs : SolveObserver),
      (vi.prioritySolve maxIter false).stats.converged = true →
      (vi.originalSolve maxIter' obs).outcome.converged = true →
      ∀ s, vi.dims.Contains s → (vi.originalSolve maxIter' obs).vi.costs s < reachThresh →
        (vi.prioritySolve maxIter false).vi.costs s = (vi.originalSolve maxIter' obs).vi.costs s ∧
          (vi.prioritySolve maxIter false).vi.policy s =
            (vi.originalSolve maxIter' obs).vi.policy s := by
  intro h
  obtain ⟨hrun, href⟩ := raisedLabel_runs
  simp only [Prod.mk.injEq] at hrun href
  have hpen : ∀ p ∈ raisedLabel.dims.all, probBase ≤ (raisedLabel.stateAt p).penalty := by
    decide +kernel
  have hagree := h raisedLabel raisedLabel_blank (fun p hp => hpen p (Dims.mem_all.mpr hp)) 10 10
    nullObserver hrun.1 href.1 ⟨0, 1, 0⟩ (by decide) (by rw [href.2]; decide)
  rw [hrun.2, href.2] at hagree
  exact absurd hagree.1 (by decide)

end ValueIteration
