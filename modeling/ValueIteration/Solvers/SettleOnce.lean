import Mathlib.Algebra.BigOperators.Group.Finset.Piecewise
import Mathlib.Algebra.Order.BigOperators.Group.Finset
import ValueIteration.Lib.Loops
import ValueIteration.Solvers.Priority

/-!
# What the label-setting loop uses up

A state settles at most once and then relaxes its bucket of predecessors, so every push
can be charged to an entry of a bucket that has not been used. With certain outcomes the
buckets of one cell together hold an entry for each action and heading, which bounds the
pops by the number of states times one more than the number of actions.
-/

set_option autoImplicit false

namespace ValueIteration

open ValueIterator

/-- Every row has one certain outcome. -/
def ValueIterator.Deterministic (vi : ValueIterator) : Prop :=
  ∀ a ∈ vi.actions, ∀ row ∈ a.stateTransitions, ∃ tr, row = [tr] ∧ tr.prob = probBase

/-- The state that a popped entry settles, if any. -/
def PrioState.settles (lab sStar : Nat) (st : PrioState) : List Nat :=
  if lab == st.vi.costs (st.vi.dims.unflat sStar) && !st.settled.getD sStar false then [sStar]
  else []

/-- The states that a label-setting loop settles, in order. -/
def settleOrder (rev : List (List (Int ×ₗ Int ×ₗ Int))) (obs : SolveObserver) (stride : Nat) :
    Nat → PrioState → List Nat
  | fuel, st =>
    match st.heap.pop with
    | none => []
    | some (top, heap) =>
      match fuel with
      | 0 => []
      | fuel + 1 =>
        let st := { st with heap := heap, pops := st.pops + 1 }
        if st.nextBoundary ≤ st.pops then
          let st := { st with nextBoundary := min (st.pops + stride) (word - 1) }
          match obs.boundary (min st.iters 4294967295) st.updates st.vi with
          | .proceed =>
            st.settles (ofLex top).1 (ofLex top).2 ++ settleOrder rev obs stride fuel
              (st.visit rev true (ofLex top).1 (ofLex top).2)
          | _ => []
        else
          st.settles (ofLex top).1 (ofLex top).2 ++ settleOrder rev obs stride fuel
            (st.visit rev true (ofLex top).1 (ofLex top).2)

/-- The states that `priority_solve` settles, in order. -/
def ValueIterator.prioritySettles (vi : ValueIterator) (maxIter : Nat) : List Nat :=
  settleOrder vi.buildRevTheta nullObserver (vi.prioStride nullObserver)
    (min (vi.dims.count * max maxIter 1) (word - 1)) (vi.prioStart true nullObserver)

namespace PrioState

/-- A flag for every state, and entries of states only. -/
structure Sized (vi : ValueIterator) (st : PrioState) : Prop where
  inputs : vi.SameInputs st.vi
  size : st.settled.length = vi.dims.count
  entries : ∀ e ∈ st.heap, (ofLex e).2 < vi.dims.count

variable {vi : ValueIterator} {st : PrioState} {sStar : Nat}

theorem index_lt {p : Pos} (hp : vi.dims.Contains p) : vi.index p < vi.dims.count := by
  have hnonneg := Dims.flat_nonneg hp
  have hlt := Dims.flat_lt hp
  rw [index]
  omega

theorem Sized.index_eq (h : st.Sized vi) (p : Pos) : st.vi.index p = vi.index p := by
  rw [index, index, h.inputs.dims]

theorem relax_settled (s : Pos) (st : PrioState) (d : Int ×ₗ Int ×ₗ Int) :
    (st.relax true s d).settled = st.settled := by
  unfold relax
  simp only
  repeat' split
  all_goals first | rfl | exact relaxAt_settled

theorem relax_iters (s : Pos) (st : PrioState) (d : Int ×ₗ Int ×ₗ Int) :
    (st.relax true s d).iters = st.iters := by
  unfold relax
  simp only
  repeat' split
  all_goals first | rfl | exact relaxAt_iters

theorem relaxAt_heap (p : Pos) (st : PrioState) : (st.relaxAt p).heap = st.heap ∨
    ∃ lab, (st.relaxAt p).heap = st.heap.push (toLex (lab, (rawEval st.vi p).1.index p)) := by
  unfold relaxAt
  simp only
  split
  · exact Or.inr ⟨_, rfl⟩
  · exact Or.inl rfl

theorem relax_cases (s : Pos) (st : PrioState) (d : Int ×ₗ Int ×ₗ Int)
    (hd : 0 ≤ (predPos s d).it ∧ (predPos s d).it < st.vi.dims.nt) :
    st.relax true s d = st ∨ st.vi.world.evaluable (predPos s d) = true ∧
      st.relax true s d = st.relaxAt (predPos s d) := by
  rw [relax_eq_ite hd]
  split
  · next h =>
    rw [Bool.and_eq_true] at h
    exact Or.inr ⟨h.1, rfl⟩
  · exact Or.inl rfl

theorem Sized.relax {s : Pos} {d : Int ×ₗ Int ×ₗ Int} (h : st.Sized vi)
    (hd : 0 ≤ (predPos s d).it ∧ (predPos s d).it < vi.dims.nt) : (st.relax true s d).Sized vi := by
  rcases relax_cases s st d (h.inputs.dims ▸ hd) with heq | ⟨hev, heq⟩
  · rw [heq]
    exact h
  · rw [heq]
    have hinputs : vi.SameInputs (rawEval st.vi (predPos s d)).1 :=
      h.inputs.trans (rawEval_sameInputs _)
    have hcon := (evaluable_iff.mp hev).1
    rw [h.inputs.dims] at hcon
    refine ⟨?_, ?_, ?_⟩
    · rw [relaxAt_vi]
      exact hinputs
    · rw [relaxAt_settled]
      exact h.size
    · intro e he
      rcases relaxAt_heap (predPos s d) st with hheap | ⟨lab, hheap⟩
      · rw [hheap] at he
        exact h.entries e he
      · rw [hheap] at he
        rcases MinHeap.mem_push.mp he with rfl | he
        · rw [ofLex_toLex, index, hinputs.dims]
          exact index_lt hcon
        · exact h.entries e he

/-- What the loop over a bucket does to flags, counters and the heap. -/
theorem Sized.foldl {s : Pos} (ds : List (Int ×ₗ Int ×ₗ Int)) : ∀ {st : PrioState}, st.Sized vi →
    (∀ d ∈ ds, 0 ≤ (predPos s d).it ∧ (predPos s d).it < vi.dims.nt) →
    (ds.foldl (PrioState.relax true s) st).Sized vi ∧
      (ds.foldl (PrioState.relax true s) st).heap.entries.length ≤
        st.heap.entries.length + ds.length := by
  induction ds with
  | nil => intro st h _; exact ⟨h, Nat.le_refl _⟩
  | cons d ds ih =>
    intro st h hds
    have hd := hds d List.mem_cons_self
    obtain ⟨hsized, hlen⟩ := ih (h.relax hd) fun d' hd' => hds d' (List.mem_cons_of_mem _ hd')
    refine ⟨hsized, hlen.trans ?_⟩
    have hone : (st.relax true s d).heap.entries.length ≤ st.heap.entries.length + 1 := by
      rcases relax_cases s st d (h.inputs.dims ▸ hd) with heq | ⟨_, heq⟩
      · rw [heq]
        omega
      · rw [heq]
        rcases relaxAt_heap (predPos s d) st with hheap | ⟨lab, hheap⟩
        · rw [hheap]
          omega
        · rw [hheap, MinHeap.length_push]
    rw [List.length_cons]
    omega

/-- A popped entry settles nothing and changes nothing, or settles its state. -/
theorem visit_settles (st : PrioState) (rev : List (List (Int ×ₗ Int ×ₗ Int))) (lab sStar : Nat) :
    (st.settles lab sStar = [] ∧ st.visit rev true lab sStar = st) ∨
    (st.settles lab sStar = [sStar] ∧ st.settled.getD sStar false = false ∧
      (st.visit rev true lab sStar).settled = st.settled.set sStar true ∧
      (st.visit rev true lab sStar).iters = st.iters + 1) := by
  unfold settles
  rcases st.visit_setting rev lab sStar with ⟨hdrop, heq⟩ | ⟨hlab, hset, heq⟩
  · refine Or.inl ⟨?_, heq⟩
    rcases hdrop with hstale | hset
    · simp only [beq_eq_false_iff_ne.mpr hstale, Bool.false_and, Bool.false_eq_true, if_false]
    · simp only [hset, Bool.not_true, Bool.and_false, Bool.false_eq_true, if_false]
  · refine Or.inr ⟨?_, hset, ?_, ?_⟩
    · simp only [hlab, hset, beq_self_eq_true, Bool.not_false, Bool.and_true, if_true]
    · rw [heq, foldl_keeps PrioState.settled (relax_settled _)]
    · rw [heq, foldl_keeps PrioState.iters (relax_iters _)]

/-- The entries of the buckets that have not been used. -/
def owed (rev : List (List (Int ×ₗ Int ×ₗ Int))) (nt n : Nat) (settled : List Bool) : Nat :=
  ∑ i ∈ Finset.range n, if settled.getD i false then 0 else (rev.getD (i % nt) []).length

theorem owed_settle (rev : List (List (Int ×ₗ Int ×ₗ Int))) (nt : Nat) {n : Nat} {settled : List Bool} (hlen : settled.length = n)
    (hlt : sStar < n) (hset : settled.getD sStar false = false) :
    owed rev nt n (settled.set sStar true) + (rev.getD (sStar % nt) []).length =
      owed rev nt n settled := by
  have hmem : sStar ∈ Finset.range n := Finset.mem_range.mpr hlt
  have hself : (settled.set sStar true).getD sStar false = true := by
    simp [List.getD_eq_getElem?_getD, hlen, hlt]
  unfold owed
  rw [← Finset.add_sum_erase _ _ hmem, ← Finset.add_sum_erase (Finset.range n) _ hmem, hself, hset,
    if_pos rfl, if_neg Bool.false_ne_true]
  have hrest : ∀ i ∈ (Finset.range n).erase sStar,
      (settled.set sStar true).getD i false = settled.getD i false := by
    intro i hi
    have hne := Finset.ne_of_mem_erase hi
    simp [List.getD_eq_getElem?_getD, hne.symm]
  rw [Finset.sum_congr rfl fun i hi => by rw [hrest i hi]]
  omega

/-- The entries on the heap and those still to be pushed. -/
def potential (vi : ValueIterator) (st : PrioState) : Nat :=
  st.heap.entries.length + owed vi.buildRevTheta vi.dims.nt vi.dims.count st.settled

/-- Step lemma of the main loop: a visit pushes no more than the bucket it uses. -/
theorem Sized.visit (h : st.Sized vi) (lab : Nat) (hlt : sStar < vi.dims.count) :
    (st.visit vi.buildRevTheta true lab sStar).Sized vi ∧
      (st.visit vi.buildRevTheta true lab sStar).potential vi ≤ st.potential vi := by
  rcases st.visit_setting vi.buildRevTheta lab sStar with ⟨_, heq⟩ | ⟨_, hset, heq⟩
  · rw [heq]
    exact ⟨h, Nat.le_refl _⟩
  · have hstart : PrioState.Sized vi
        { st with settled := st.settled.set sStar true, iters := st.iters + 1 } :=
      ⟨h.inputs, by rw [List.length_set, h.size], h.entries⟩
    rw [heq]
    obtain ⟨hsized, hlen⟩ := hstart.foldl _ fun d hd => heading_of_mem_rev hd _
    refine ⟨hsized, ?_⟩
    have howed := owed_settle vi.buildRevTheta vi.dims.nt h.size hlt hset
    have hheading : (st.vi.dims.unflat sStar).it.toNat = sStar % vi.dims.nt := by
      rw [h.inputs.dims, Dims.unflat, Int.toNat_natCast]
    simp only [potential, foldl_keeps PrioState.settled (relax_settled _)]
    rw [hheading] at hlen ⊢
    simp only at hlen
    omega

theorem Sized.of_pop (h : st.Sized vi) {top : Nat ×ₗ Nat} {heap : LabelHeap}
    (hpop : st.heap.pop = some (top, heap)) {st' : PrioState} (hvi : st'.vi = st.vi)
    (hheap : st'.heap = heap) (hset : st'.settled = st.settled) :
    st'.Sized vi ∧ (ofLex top).2 < vi.dims.count ∧
      st'.potential vi + 1 = st.potential vi := by
  refine ⟨⟨hvi ▸ h.inputs, hset ▸ h.size, ?_⟩, ?_, ?_⟩
  · intro e he
    rw [hheap] at he
    exact h.entries e ((MinHeap.mem_iff_of_pop hpop).mpr (Or.inr he))
  · exact h.entries top ((MinHeap.mem_iff_of_pop hpop).mpr (Or.inl rfl))
  · rw [potential, potential, hheap, hset, MinHeap.length_of_pop hpop]
    omega

theorem Sized.start (vi : ValueIterator) (obs : SolveObserver) :
    (vi.prioStart true obs).Sized vi := by
  refine ⟨SameInputs.refl vi, ?_, ?_⟩
  · rw [prioStart, if_pos rfl, List.length_replicate]
  · intro e he
    obtain ⟨p, hp, _, rfl⟩ := mem_seedHeap_iff.mp he
    exact index_lt hp

end PrioState

section Loop

variable {vi : ValueIterator} {obs : SolveObserver} {stride : Nat}

/-- Run lemma: the loop settles only states that are not settled yet, each once, and its
counter counts them. -/
theorem settleOrder_spec (fuel : Nat) : ∀ {st : PrioState}, st.Sized vi →
    (settleOrder vi.buildRevTheta obs stride fuel st).Nodup ∧
    (∀ s ∈ settleOrder vi.buildRevTheta obs stride fuel st,
      s < vi.dims.count ∧ st.settled.getD s false = false) ∧
    st.iters + (settleOrder vi.buildRevTheta obs stride fuel st).length =
      (prioLoop vi.buildRevTheta true obs stride fuel st).stats.iters := by
  induction fuel with
  | zero =>
    intro st _
    unfold settleOrder prioLoop
    cases st.heap.pop with
    | none => exact ⟨List.nodup_nil, fun s hs => absurd hs List.not_mem_nil, rfl⟩
    | some e => exact ⟨List.nodup_nil, fun s hs => absurd hs List.not_mem_nil, rfl⟩
  | succ fuel ih =>
    intro st h
    unfold settleOrder prioLoop
    cases hpop : st.heap.pop with
    | none => exact ⟨List.nodup_nil, fun s hs => absurd hs List.not_mem_nil, rfl⟩
    | some e =>
      obtain ⟨top, heap⟩ := e
      have hstep : ∀ st' : PrioState, st'.vi = st.vi → st'.heap = heap →
          st'.settled = st.settled → st'.iters = st.iters →
          let order := st'.settles (ofLex top).1 (ofLex top).2 ++
            settleOrder vi.buildRevTheta obs stride fuel
              (st'.visit vi.buildRevTheta true (ofLex top).1 (ofLex top).2)
          order.Nodup ∧
            (∀ s ∈ order, s < vi.dims.count ∧ st.settled.getD s false = false) ∧
            st.iters + order.length = (prioLoop vi.buildRevTheta true obs stride fuel
              (st'.visit vi.buildRevTheta true (ofLex top).1 (ofLex top).2)).stats.iters := by
        intro st' hvi hheap hset hiters
        obtain ⟨hsized, hlt, _⟩ := h.of_pop hpop hvi hheap hset
        obtain ⟨hnodup, hfresh, hcount⟩ := ih (hsized.visit (ofLex top).1 hlt).1
        rcases st'.visit_settles vi.buildRevTheta (ofLex top).1 (ofLex top).2 with
          ⟨hnone, heq⟩ | ⟨hone, hnew, hflags, hplus⟩
        · rw [heq] at hnodup hfresh hcount ⊢
          simp only [hnone, List.nil_append]
          rw [hset, hiters] at *
          exact ⟨hnodup, hfresh, hcount⟩
        · simp only [hone, List.singleton_append]
          rw [hflags, hset] at hfresh
          rw [hplus, hiters] at hcount
          rw [hset] at hnew
          have hlen : (ofLex top).2 < st.settled.length := by
            rw [h.size]
            exact hlt
          refine ⟨List.nodup_cons.mpr ⟨?_, hnodup⟩, ?_, ?_⟩
          · intro hmem
            have hself := (hfresh _ hmem).2
            simp [List.getD_eq_getElem?_getD, hlen] at hself
          · intro s hs
            rcases List.mem_cons.mp hs with rfl | hs
            · exact ⟨hlt, hnew⟩
            · obtain ⟨hslt, hs⟩ := hfresh s hs
              refine ⟨hslt, ?_⟩
              by_cases hne : (ofLex top).2 = s
              · rw [← hne]
                exact hnew
              · simpa [List.getD_eq_getElem?_getD, hne] using hs
          · rw [List.length_cons]
            omega
      by_cases hdue : st.nextBoundary ≤ st.pops + 1
      · simp only [if_pos hdue]
        cases obs.boundary (min st.iters 4294967295) st.updates st.vi with
        | proceed =>
          exact hstep { st with
            heap := heap, pops := st.pops + 1
            nextBoundary := min (st.pops + 1 + stride) (word - 1) } rfl rfl rfl rfl
        | stop => exact ⟨List.nodup_nil, fun s hs => absurd hs List.not_mem_nil, rfl⟩
        | cancel => exact ⟨List.nodup_nil, fun s hs => absurd hs List.not_mem_nil, rfl⟩
      · simp only [if_neg hdue]
        exact hstep { st with heap := heap, pops := st.pops + 1 } rfl rfl rfl rfl

/-- A loop that nothing interrupts, with a pop for every entry there is or will be, runs
until the heap is empty. -/
theorem prioLoop_converged (hobs : ∀ iters updates v, obs.boundary iters updates v = .proceed)
    (fuel : Nat) : ∀ {st : PrioState}, st.Sized vi → st.potential vi ≤ fuel →
      (prioLoop vi.buildRevTheta true obs stride fuel st).stats.converged = true := by
  induction fuel with
  | zero =>
    intro st h hfuel
    unfold prioLoop
    cases hpop : st.heap.pop with
    | none => rfl
    | some e =>
      have hlen := MinHeap.length_of_pop hpop
      rw [PrioState.potential] at hfuel
      omega
  | succ fuel ih =>
    intro st h hfuel
    unfold prioLoop
    cases hpop : st.heap.pop with
    | none => rfl
    | some e =>
      obtain ⟨top, heap⟩ := e
      have hstep : ∀ st' : PrioState, st'.vi = st.vi → st'.heap = heap →
          st'.settled = st.settled →
          (prioLoop vi.buildRevTheta true obs stride fuel
            (st'.visit vi.buildRevTheta true (ofLex top).1 (ofLex top).2)).stats.converged
              = true := by
        intro st' hvi hheap hset
        obtain ⟨hsized, hlt, hpot⟩ := h.of_pop hpop hvi hheap hset
        obtain ⟨hvisit, hle⟩ := hsized.visit (ofLex top).1 hlt
        exact ih hvisit (by omega)
      simp only [hobs]
      split
      · exact hstep _ rfl rfl rfl
      · exact hstep _ rfl rfl rfl

end Loop

section Bound

theorem sum_range_mod (g : Nat → Nat) (m : Nat) : ∀ k,
    ∑ i ∈ Finset.range (k * m), g (i % m) = k * ∑ i ∈ Finset.range m, g i := by
  intro k
  induction k with
  | zero => rw [Nat.zero_mul, Finset.sum_range_zero, Nat.zero_mul]
  | succ k ih =>
    rw [Nat.succ_mul, Finset.sum_range_add, ih, Nat.succ_mul]
    congr 1
    refine Finset.sum_congr rfl ?_
    intro i hi
    rw [Nat.add_comm, Nat.add_mul_mod_self_right, Nat.mod_eq_of_lt (Finset.mem_range.mp hi)]

theorem sum_range_map_le {α : Type} {f : Nat → α → Nat} {n k : Nat} (l : List α)
    (h : ∀ x ∈ l, ∑ i ∈ Finset.range n, f i x ≤ k) :
    ∑ i ∈ Finset.range n, (l.map (f i)).sum ≤ l.length * k := by
  induction l with
  | nil => simp
  | cons x l ih =>
    have hx := h x List.mem_cons_self
    have hl := ih fun y hy => h y (List.mem_cons_of_mem _ hy)
    simp only [List.map_cons, List.sum_cons, List.length_cons, Finset.sum_add_distrib]
    rw [Nat.succ_mul]
    omega

variable {vi : ValueIterator}

theorem length_landings (nt : Nat) (a : Action) (itp : Int) : (landings nt a itp).length =
    (a.stateTransitions.map fun row => (row.filter fun tr => landing nt tr == itp).length).sum := by
  rw [landings, List.length_flatMap]
  simp only [List.length_map]
  have hfst := List.zipIdx_map_fst 0 a.stateTransitions
  conv_rhs => rw [← hfst, List.map_map]
  rfl

/-- A certain outcome lands on one heading. -/
theorem sum_landings_le (hdet : vi.Deterministic) {a : Action} (ha : a ∈ vi.actions) :
    ∑ it ∈ Finset.range vi.dims.nt, (landings vi.dims.nt a it).length ≤ vi.dims.nt := by
  have hlen : a.stateTransitions.length = vi.dims.nt := (vi.wellFormed a ha).1
  have hrow : ∀ row ∈ a.stateTransitions, ∑ it ∈ Finset.range vi.dims.nt,
      (row.filter fun tr => landing vi.dims.nt tr == (it : Int)).length ≤ 1 := by
    intro row hmem
    obtain ⟨tr, rfl, _⟩ := hdet a ha row hmem
    have hone : ∀ it ∈ Finset.range vi.dims.nt,
        ([tr].filter fun tr => landing vi.dims.nt tr == (it : Int)).length ≤
          if (landing vi.dims.nt tr).toNat = it then 1 else 0 := by
      intro it _
      by_cases heq : landing vi.dims.nt tr = it
      · rw [heq, Int.toNat_natCast, if_pos rfl]
        exact List.length_filter_le _ _
      · rw [List.filter_cons_of_neg (by simpa using heq)]
        exact Nat.zero_le _
    refine (Finset.sum_le_sum hone).trans ?_
    rw [Finset.sum_ite_eq]
    split
    · exact Nat.le_refl _
    · exact Nat.zero_le _
  have hsum := sum_range_map_le _ hrow
  simp only [length_landings]
  omega

theorem length_bucket_le (it : Nat) : (vi.buildRevTheta.getD it []).length ≤
    (vi.actions.map fun a => (landings vi.dims.nt a it).length).sum := by
  rw [buildRevTheta, List.getD_eq_getElem?_getD, List.getElem?_map]
  by_cases hlt : it < vi.dims.nt
  · rw [List.getElem?_range hlt, Option.map_some, Option.getD_some, ← List.length_flatMap]
    refine (List.dedup_sublist _).length_le.trans ?_
    rw [List.length_insertionSort]
  · rw [List.getElem?_eq_none (by rw [List.length_range]; omega)]
    exact Nat.zero_le _

theorem potential_start_le (hdet : vi.Deterministic) (obs : SolveObserver) :
    (vi.prioStart true obs).potential vi ≤ vi.dims.count * (vi.actions.length + 1) := by
  have hpush : ∀ (ps : List Pos) (h : LabelHeap),
      (ps.foldl (fun heap q => heap.push (vi.label q)) h).entries.length =
        h.entries.length + ps.length := by
    intro ps
    induction ps with
    | nil => intro h; rfl
    | cons q ps ih =>
      intro h
      rw [List.foldl_cons, ih, MinHeap.length_push, List.length_cons]
      omega
  have hheap : vi.seedHeap.entries.length ≤ vi.dims.count := by
    rw [seedHeap, hpush, ← Dims.length_all]
    exact (Nat.zero_add _).trans_le (List.length_filter_le _ _)
  have howed : PrioState.owed vi.buildRevTheta vi.dims.nt vi.dims.count
      (vi.prioStart true obs).settled ≤ vi.dims.count * vi.actions.length := by
    have hbuckets : ∑ it ∈ Finset.range vi.dims.nt, (vi.buildRevTheta.getD it []).length ≤
        vi.actions.length * vi.dims.nt :=
      (Finset.sum_le_sum fun it _ => length_bucket_le it).trans
        (sum_range_map_le _ fun a ha => sum_landings_le hdet ha)
    calc PrioState.owed vi.buildRevTheta vi.dims.nt vi.dims.count (vi.prioStart true obs).settled
        ≤ ∑ i ∈ Finset.range vi.dims.count, (vi.buildRevTheta.getD (i % vi.dims.nt) []).length := by
          refine Finset.sum_le_sum ?_
          intro i _
          split
          · exact Nat.zero_le _
          · exact Nat.le_refl _
      _ = vi.dims.nx * vi.dims.ny *
          ∑ it ∈ Finset.range vi.dims.nt, (vi.buildRevTheta.getD it []).length :=
        sum_range_mod (fun it => (vi.buildRevTheta.getD it []).length) _ _
      _ ≤ vi.dims.nx * vi.dims.ny * (vi.actions.length * vi.dims.nt) :=
        Nat.mul_le_mul_left _ hbuckets
      _ = vi.dims.count * vi.actions.length := by
        rw [Dims.count]
        ring
  rw [PrioState.potential, Nat.mul_succ]
  have hstart : (vi.prioStart true obs).heap = vi.seedHeap := rfl
  rw [hstart]
  omega

/-- With certain outcomes and `max_iter` above the number of actions, the pops do not
run out. -/
theorem prioritySolve_converged (hdet : vi.Deterministic) {maxIter : Nat}
    (hmax : vi.actions.length < maxIter)
    (hsize : vi.dims.count * (vi.actions.length + 1) < word) :
    (vi.prioritySolve maxIter true).stats.converged = true := by
  refine prioLoop_converged (fun _ _ _ => rfl) _ (PrioState.Sized.start vi nullObserver) ?_
  refine (potential_start_le hdet nullObserver).trans (Nat.le_min.mpr ⟨?_, ?_⟩)
  · exact Nat.mul_le_mul_left _ (hmax.trans_le (Nat.le_max_left maxIter 1))
  · omega

/-- `priority_solve` settles each state at most once, and counts what it settles. -/
theorem prioritySettles_spec (vi : ValueIterator) (maxIter : Nat) :
    (vi.prioritySettles maxIter).Nodup ∧
    (∀ s ∈ vi.prioritySettles maxIter, s < vi.dims.count) ∧
    (vi.prioritySettles maxIter).length = (vi.prioritySolve maxIter true).stats.iters := by
  obtain ⟨hnodup, hfresh, hcount⟩ := @settleOrder_spec vi nullObserver
    (vi.prioStride nullObserver) (min (vi.dims.count * max maxIter 1) (word - 1)) _
    (PrioState.Sized.start vi nullObserver)
  refine ⟨hnodup, fun s hs => (hfresh s hs).1, ?_⟩
  exact (Nat.zero_add _).symm.trans hcount

end Bound

end ValueIteration
