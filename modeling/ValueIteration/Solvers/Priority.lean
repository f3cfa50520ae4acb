import Mathlib.Data.Int.Order.Basic
import ValueIteration.Lib.MinHeap
import ValueIteration.Solvers.InPlaceSound

/-!
# The priority solvers

The raw update called in ascending order of the labels. A state popped from the heap
re-evaluates the states that can lead to it; an update that lowers a label pushes it.
Label-setting settles each state once, label-correcting pops it as often as needed.
A run also records its evaluations, each with the field and the heap before it.
-/

set_option autoImplicit false

namespace ValueIteration

namespace ValueIterator

/-- The heading a transition lands on, as the reverse table keys it. -/
def landing (nt : Nat) (tr : StateTransition) : Int := (tr.dit.tmod nt + nt).tmod nt

/-- The displacements and source headings that one action enters under heading `itp`. -/
def landings (nt : Nat) (a : Action) (itp : Int) : List (Int ×ₗ Int ×ₗ Int) :=
  a.stateTransitions.zipIdx.flatMap fun e =>
    (e.1.filter fun tr => landing nt tr == itp).map fun tr =>
      toLex (tr.dix, toLex (tr.diy, (e.2 : Int)))

/-- `build_rev_theta`: a bucket for every heading, sorted and without repetitions. -/
def buildRevTheta (vi : ValueIterator) : List (List (Int ×ₗ Int ×ₗ Int)) :=
  (List.range vi.dims.nt).map fun (itp : Nat) =>
    ((vi.actions.flatMap fun a => landings vi.dims.nt a itp).insertionSort (· ≤ ·)).dedup

/-- `relax_cell`: the field after the update, and the label if it got smaller. -/
def relaxCell (vi : ValueIterator) (p : Pos) : ValueIterator × Option Nat :=
  let r := (rawEval vi p).1
  (r, if r.costs p < vi.costs p then some (r.costs p) else none)

end ValueIterator

structure PrioStats where
  iters : Nat
  updates : Nat
  converged : Bool
  repops : Nat
  deriving DecidableEq, Repr

/-- Labels with the indices of their states. -/
abbrev LabelHeap := MinHeap (Nat ×ₗ Nat)

/-- A state about to be evaluated, with the field and the heap it meets. -/
structure Relaxation where
  vi : ValueIterator
  heap : LabelHeap
  state : Pos

structure PrioState where
  vi : ValueIterator
  heap : LabelHeap
  settled : List Bool
  popped : List Bool
  nextBoundary : Nat
  pops : Nat
  iters : Nat
  updates : Nat
  repops : Nat
  relaxed : List Relaxation

structure PrioRun where
  vi : ValueIterator
  stats : PrioStats
  flow : SolveFlow
  relaxed : List Relaxation

namespace ValueIterator

def index (vi : ValueIterator) (p : Pos) : Nat := (vi.dims.flat p).toNat

def label (vi : ValueIterator) (p : Pos) : Nat ×ₗ Nat := toLex (vi.costs p, vi.index p)

/-- The seeds: states below `MAX_COST`. -/
def seedHeap (vi : ValueIterator) : LabelHeap :=
  (vi.dims.all.filter fun p => decide (vi.costs p < maxCost)).foldl
    (fun heap p => heap.push (vi.label p)) MinHeap.empty

end ValueIterator

/-- The predecessor `(dix, diy, t)` of a state. -/
def predPos (sStar : Pos) (d : Int ×ₗ Int ×ₗ Int) : Pos :=
  ⟨sStar.ix - (ofLex d).1, sStar.iy - (ofLex (ofLex d).2).1, (ofLex (ofLex d).2).2⟩

namespace PrioState

/-- Evaluate one predecessor and push its label if it got smaller. -/
def relaxAt (p : Pos) (st : PrioState) : PrioState :=
  let r := st.vi.relaxCell p
  let st := { st with vi := r.1, relaxed := st.relaxed ++ [⟨st.vi, st.heap, p⟩] }
  match r.2 with
  | some newlab =>
    { st with heap := st.heap.push (toLex (newlab, st.vi.index p)), updates := st.updates + 1 }
  | none => st

/-- The body of the loop over the predecessors of `sStar`. -/
def relax (labelSetting : Bool) (sStar : Pos) (st : PrioState) (d : Int ×ₗ Int ×ₗ Int) :
    PrioState :=
  let p := predPos sStar d
  if !st.vi.inMapArea p.ix p.iy then st
  else if labelSetting && st.settled.getD (st.vi.index p) false then st
  else if !(st.vi.stateAt p).free || (st.vi.stateAt p).finalState then st
  else st.relaxAt p

/-- The bookkeeping of a popped state; `none` when it was settled before. -/
def count (labelSetting : Bool) (sStar : Nat) (st : PrioState) : Option PrioState :=
  if labelSetting then
    if st.settled.getD sStar false then none
    else some { st with settled := st.settled.set sStar true, iters := st.iters + 1 }
  else if st.popped.getD sStar false then
    some { st with repops := st.repops + 1, iters := st.iters + 1 }
  else some { st with popped := st.popped.set sStar true, iters := st.iters + 1 }

/-- A popped entry: stale ones are dropped, others are counted and relax the
predecessors. -/
def visit (rev : List (List (Int ×ₗ Int ×ₗ Int))) (labelSetting : Bool) (lab sStar : Nat)
    (st : PrioState) : PrioState :=
  let s := st.vi.dims.unflat sStar
  if lab != st.vi.costs s then st
  else
    match st.count labelSetting sStar with
    | none => st
    | some st => (rev.getD s.it.toNat []).foldl (relax labelSetting s) st

def finish (st : PrioState) (converged : Bool) (flow : SolveFlow) : PrioRun :=
  ⟨st.vi, ⟨st.iters, st.updates, converged, st.repops⟩, flow, st.relaxed⟩

end PrioState

/-- The loop of `priority_solve_inner`; the first argument is `pop_cap - pops`. -/
def prioLoop (rev : List (List (Int ×ₗ Int ×ₗ Int))) (labelSetting : Bool) (obs : SolveObserver)
    (stride : Nat) : Nat → PrioState → PrioRun
  | fuel, st =>
    match st.heap.pop with
    | none => st.finish true .proceed
    | some (top, heap) =>
      match fuel with
      | 0 => st.finish false .proceed
      | fuel + 1 =>
        let st := { st with heap := heap, pops := st.pops + 1 }
        if st.nextBoundary ≤ st.pops then
          let st := { st with nextBoundary := min (st.pops + stride) (word - 1) }
          match obs.boundary (min st.iters 4294967295) st.updates st.vi with
          | .proceed =>
            prioLoop rev labelSetting obs stride fuel
              (st.visit rev labelSetting (ofLex top).1 (ofLex top).2)
          | flow => st.finish false flow
        else
          prioLoop rev labelSetting obs stride fuel
            (st.visit rev labelSetting (ofLex top).1 (ofLex top).2)

namespace ValueIterator

/-- Pops between two boundaries. -/
def prioStride (vi : ValueIterator) (obs : SolveObserver) : Nat :=
  min (min (max (vi.dims.count / 16) 64) 65536 * max obs.interval 1) (word - 1)

def prioStart (vi : ValueIterator) (labelSetting : Bool) (obs : SolveObserver) : PrioState where
  vi := vi
  heap := vi.seedHeap
  settled := List.replicate (if labelSetting then vi.dims.count else 0) false
  popped := List.replicate (if labelSetting then 0 else vi.dims.count) false
  nextBoundary := vi.prioStride obs
  pops := 0
  iters := 0
  updates := 0
  repops := 0
  relaxed := []

def prioritySolveInner (vi : ValueIterator) (maxIter : Nat) (labelSetting : Bool)
    (obs : SolveObserver) : PrioRun :=
  prioLoop vi.buildRevTheta labelSetting obs (vi.prioStride obs)
    (min (vi.dims.count * max maxIter 1) (word - 1)) (vi.prioStart labelSetting obs)

def prioritySolve (vi : ValueIterator) (maxIter : Nat) (labelSetting : Bool) : PrioRun :=
  vi.prioritySolveInner maxIter labelSetting nullObserver

def prioritySolveObserved (vi : ValueIterator) (maxIter : Nat) (labelSetting : Bool)
    (obs : SolveObserver) : ValueIterator × SolveOutcome :=
  let r := vi.prioritySolveInner maxIter labelSetting obs
  let iters := min r.stats.iters 4294967295
  (r.vi, match r.flow with
    | .stop => .mkStopped iters r.stats.updates
    | .cancel => .mkCancelled iters r.stats.updates
    | .proceed => .running iters r.stats.updates r.stats.converged)

variable {vi : ValueIterator}

theorem landing_eq {nt : Nat} (hnt : 0 < nt) {tr : StateTransition} (h : -(nt : Int) ≤ tr.dit) :
    landing nt tr = (tr.dit + nt).tmod nt := by
  have hlow : 0 ≤ tr.dit.tmod nt + nt := by
    have := Int.lt_tmod_of_pos tr.dit (b := nt) (by omega)
    omega
  have hsum : 0 ≤ tr.dit + nt := by omega
  have hmod : tr.dit.tmod nt % nt = tr.dit % nt := by
    have hsplit := Int.tmod_add_mul_tdiv tr.dit nt
    calc tr.dit.tmod nt % nt = (tr.dit.tmod nt + nt * tr.dit.tdiv nt) % nt :=
        (Int.add_mul_emod_self_left _ _ _).symm
      _ = tr.dit % nt := by rw [hsplit]
  rw [landing, Int.tmod_eq_emod_of_nonneg hlow, Int.tmod_eq_emod_of_nonneg hsum,
    Int.add_emod_right, Int.add_emod_right, hmod]

theorem heading_of_mem_rev {itp : Nat} {d : Int ×ₗ Int ×ₗ Int}
    (h : d ∈ vi.buildRevTheta.getD itp []) (sStar : Pos) :
    0 ≤ (predPos sStar d).it ∧ (predPos sStar d).it < vi.dims.nt := by
  rw [buildRevTheta, List.getD_eq_getElem?_getD, List.getElem?_map] at h
  by_cases hlt : itp < vi.dims.nt
  · rw [List.getElem?_range hlt, Option.map_some, Option.getD_some, List.mem_dedup,
      List.mem_insertionSort] at h
    obtain ⟨a, ha, h⟩ := List.mem_flatMap.mp h
    obtain ⟨e, he, h⟩ := List.mem_flatMap.mp h
    obtain ⟨tr, _, rfl⟩ := List.mem_map.mp h
    have hlen : a.stateTransitions.length = vi.dims.nt := (vi.wellFormed a ha).1
    have hidx := List.snd_lt_of_mem_zipIdx he
    simp only [predPos, ofLex_toLex]
    omega
  · rw [List.getElem?_eq_none (by rw [List.length_range]; omega)] at h
    exact absurd h List.not_mem_nil

/-- Every state with a transition to a state is among the predecessors listed for it. -/
theorem exists_pred_of_outcome {s : Pos} (hs : vi.dims.Contains s) {a : Action}
    (ha : a ∈ vi.actions) {tr : StateTransition} (htr : tr ∈ a.row s.it)
    (ht : vi.dims.Contains (vi.outcomePos s tr)) :
    ∃ d ∈ vi.buildRevTheta.getD (vi.outcomePos s tr).it.toNat [],
      predPos (vi.outcomePos s tr) d = s := by
  have hnt : 0 < vi.dims.nt := by
    have := hs.2.2
    omega
  have hdit := (((vi.wellFormed a ha).2 _ (List.mem_of_getElem? (row_mem ha hs))).1 tr htr).2
  have hland : landing vi.dims.nt tr = (vi.outcomePos s tr).it := landing_eq hnt hdit
  have hbucket : (vi.outcomePos s tr).it.toNat < vi.dims.nt := by
    have := ht.2.2
    omega
  refine ⟨toLex (tr.dix, toLex (tr.diy, ((s.it.toNat : Nat) : Int))), ?_, ?_⟩
  · rw [buildRevTheta, List.getD_eq_getElem?_getD, List.getElem?_map,
      List.getElem?_range hbucket, Option.map_some, Option.getD_some, List.mem_dedup,
      List.mem_insertionSort]
    refine List.mem_flatMap.mpr ⟨a, ha, List.mem_flatMap.mpr ⟨(a.row s.it, s.it.toNat), ?_, ?_⟩⟩
    · exact List.mem_zipIdx_iff_getElem?.mpr (row_mem ha hs)
    · refine List.mem_map.mpr ⟨tr, List.mem_filter.mpr ⟨htr, ?_⟩, rfl⟩
      have := ht.2.2
      rw [hland, beq_iff_eq]
      omega
  · obtain ⟨ix, iy, it⟩ := s
    have := hs.2.2
    simp only [predPos, outcomePos, ofLex_toLex, Pos.mk.injEq] at this ⊢
    omega

/-- Every state that reads `t` is among the predecessors listed for `t`. -/
theorem exists_pred_of_reads {s t : Pos} (hev : vi.world.evaluable s = true)
    (h : vi.world.Reads s t) :
    ∃ d ∈ vi.buildRevTheta.getD t.it.toNat [], predPos t d = s := by
  have ht := reads_contains hev h
  obtain ⟨a, ha, tr, htr, _, _, rfl⟩ := reads_elim h
  exact exists_pred_of_outcome (evaluable_iff.mp hev).1 ha htr ht

end ValueIterator

namespace PrioState

variable {st : PrioState} {p : Pos}

@[simp] theorem relaxAt_vi : (st.relaxAt p).vi = (rawEval st.vi p).1 := by
  unfold relaxAt
  simp only
  split <;> rfl

@[simp] theorem relaxAt_relaxed :
    (st.relaxAt p).relaxed = st.relaxed ++ [⟨st.vi, st.heap, p⟩] := by
  unfold relaxAt
  simp only
  split <;> rfl

@[simp] theorem relaxAt_settled : (st.relaxAt p).settled = st.settled := by
  unfold relaxAt
  simp only
  split <;> rfl

@[simp] theorem relaxAt_iters : (st.relaxAt p).iters = st.iters := by
  unfold relaxAt
  simp only
  split <;> rfl

theorem mem_relaxAt {e : Nat ×ₗ Nat} (h : e ∈ st.heap) : e ∈ (st.relaxAt p).heap := by
  unfold relaxAt
  simp only
  split
  · exact MinHeap.mem_push.mpr (Or.inr h)
  · exact h

theorem label_mem_relaxAt (h : (st.relaxAt p).vi.costs p < st.vi.costs p) :
    (st.relaxAt p).vi.label p ∈ (st.relaxAt p).heap := by
  rw [relaxAt_vi] at h ⊢
  unfold relaxAt
  simp only [ValueIterator.relaxCell, if_pos h]
  exact MinHeap.mem_push.mpr (Or.inl rfl)

/-- A predecessor is evaluated if it is on the map, free and not final, and with
label-setting not settled. -/
theorem relax_eq_ite {labelSetting : Bool} {sStar : Pos} {d : Int ×ₗ Int ×ₗ Int}
    (hd : 0 ≤ (predPos sStar d).it ∧ (predPos sStar d).it < st.vi.dims.nt) :
    st.relax labelSetting sStar d = if st.vi.world.evaluable (predPos sStar d) &&
        !(labelSetting && st.settled.getD (st.vi.index (predPos sStar d)) false)
      then st.relaxAt (predPos sStar d) else st := by
  unfold relax
  by_cases hin : st.vi.inMapArea (predPos sStar d).ix (predPos sStar d).iy = true
  · have hcon : st.vi.dims.Contains (predPos sStar d) := by
      have := ValueIterator.inMapArea_iff.mp hin
      exact ⟨⟨this.1, this.2.1⟩, this.2.2, hd⟩
    simp only [hin, Bool.not_true, Bool.false_eq_true, if_false]
    cases labelSetting && st.settled.getD (st.vi.index (predPos sStar d)) false <;>
      cases hfree : (st.vi.stateAt (predPos sStar d)).free <;>
        cases hfin : (st.vi.stateAt (predPos sStar d)).finalState <;>
          simp [ValueIterator.world, State.evaluable, hfree, hfin, hcon]
  · have hcon : ¬ st.vi.dims.Contains (predPos sStar d) := by
      intro h
      exact hin (ValueIterator.inMapArea_iff.mpr ⟨h.1.1, h.1.2, h.2.1⟩)
    rw [Bool.not_eq_true] at hin
    simp [hin, ValueIterator.world, hcon]

theorem relax_eq {sStar : Pos} {d : Int ×ₗ Int ×ₗ Int}
    (hd : 0 ≤ (predPos sStar d).it ∧ (predPos sStar d).it < st.vi.dims.nt) :
    st.relax false sStar d = if st.vi.world.evaluable (predPos sStar d)
      then st.relaxAt (predPos sStar d) else st := by
  rw [relax_eq_ite hd, Bool.false_and, Bool.not_false, Bool.and_true]

/-- With label-correcting, a popped state is always counted. -/
theorem count_false (st : PrioState) (sStar : Nat) : ∃ st₁, st.count false sStar = some st₁ ∧
    st₁.vi = st.vi ∧ st₁.heap = st.heap ∧ st₁.relaxed = st.relaxed := by
  unfold count
  simp only [Bool.false_eq_true, if_false]
  split <;> exact ⟨_, rfl, rfl, rfl, rfl⟩

/-- With label-correcting, a popped entry is stale or its state relaxes every
predecessor. -/
theorem visit_cases (st : PrioState) (rev : List (List (Int ×ₗ Int ×ₗ Int))) (lab sStar : Nat) :
    (lab ≠ st.vi.costs (st.vi.dims.unflat sStar) ∧ st.visit rev false lab sStar = st) ∨
    (lab = st.vi.costs (st.vi.dims.unflat sStar) ∧ ∃ st₁ : PrioState, st₁.vi = st.vi ∧
      st₁.heap = st.heap ∧ st₁.relaxed = st.relaxed ∧ st.visit rev false lab sStar =
        (rev.getD (st.vi.dims.unflat sStar).it.toNat []).foldl
          (relax false (st.vi.dims.unflat sStar)) st₁) := by
  unfold visit
  by_cases hlab : lab = st.vi.costs (st.vi.dims.unflat sStar)
  · obtain ⟨st₁, hcount, hvi, hheap, hrelaxed⟩ := st.count_false sStar
    refine Or.inr ⟨hlab, st₁, hvi, hheap, hrelaxed, ?_⟩
    simp only [← hlab, bne_self_eq_false, Bool.false_eq_true, if_false, hcount]
  · refine Or.inl ⟨hlab, ?_⟩
    simp only [bne_iff_ne.mpr hlab, if_true]

/-- With label-setting, a popped entry is stale, its state is settled, or it settles and
relaxes every predecessor. -/
theorem visit_setting (st : PrioState) (rev : List (List (Int ×ₗ Int ×ₗ Int))) (lab sStar : Nat) :
    ((lab ≠ st.vi.costs (st.vi.dims.unflat sStar) ∨ st.settled.getD sStar false = true) ∧
      st.visit rev true lab sStar = st) ∨
    (lab = st.vi.costs (st.vi.dims.unflat sStar) ∧ st.settled.getD sStar false = false ∧
      st.visit rev true lab sStar = (rev.getD (st.vi.dims.unflat sStar).it.toNat []).foldl
        (relax true (st.vi.dims.unflat sStar))
        { st with settled := st.settled.set sStar true, iters := st.iters + 1 }) := by
  unfold visit count
  by_cases hlab : lab = st.vi.costs (st.vi.dims.unflat sStar)
  · cases hset : st.settled.getD sStar false
    · refine Or.inr ⟨hlab, rfl, ?_⟩
      simp only [hlab, bne_self_eq_false, Bool.false_eq_true, if_false, if_true]
    · refine Or.inl ⟨Or.inr rfl, ?_⟩
      simp only [hlab, bne_self_eq_false, Bool.false_eq_true, if_false, if_true]
  · refine Or.inl ⟨Or.inl hlab, ?_⟩
    simp only [bne_iff_ne.mpr hlab, if_true]

end PrioState

section Record

variable {rev : List (List (Int ×ₗ Int ×ₗ Int))} {labelSetting : Bool} {obs : SolveObserver}
  {stride : Nat}

theorem relaxed_relax (sStar : Pos) (st : PrioState) (d : Int ×ₗ Int ×ₗ Int) :
    st.relaxed ⊆ (st.relax labelSetting sStar d).relaxed := by
  unfold PrioState.relax
  simp only
  split
  · exact List.Subset.refl _
  · split
    · exact List.Subset.refl _
    · split
      · exact List.Subset.refl _
      · rw [PrioState.relaxAt_relaxed]
        exact List.subset_append_left _ _

theorem relaxed_foldl (sStar : Pos) (ds : List (Int ×ₗ Int ×ₗ Int)) : ∀ st : PrioState,
    st.relaxed ⊆ (ds.foldl (PrioState.relax labelSetting sStar) st).relaxed := by
  induction ds with
  | nil => intro st; exact List.Subset.refl _
  | cons d ds ih => intro st; exact List.Subset.trans (relaxed_relax sStar st d) (ih _)

theorem relaxed_count {st st₁ : PrioState} {sStar : Nat}
    (h : st.count labelSetting sStar = some st₁) : st₁.relaxed = st.relaxed := by
  unfold PrioState.count at h
  split at h
  · split at h
    · cases h
    · cases h
      rfl
  · split at h <;> cases h <;> rfl

theorem relaxed_visit (rev : List (List (Int ×ₗ Int ×ₗ Int))) (lab sStar : Nat) (st : PrioState) :
    st.relaxed ⊆ (st.visit rev labelSetting lab sStar).relaxed := by
  unfold PrioState.visit
  simp only
  split
  · exact List.Subset.refl _
  · cases hcount : st.count labelSetting sStar with
    | none => exact List.Subset.refl _
    | some st₁ =>
      rw [← relaxed_count hcount]
      exact relaxed_foldl _ _ _

theorem relaxed_prioLoop (fuel : Nat) : ∀ st : PrioState,
    st.relaxed ⊆ (prioLoop rev labelSetting obs stride fuel st).relaxed := by
  induction fuel with
  | zero =>
    intro st
    unfold prioLoop
    split <;> exact List.Subset.refl _
  | succ fuel ih =>
    intro st
    unfold prioLoop
    split
    · exact List.Subset.refl _
    · simp only
      split
      · split
        · exact fun e he => ih _ (relaxed_visit rev _ _ _ he)
        · exact List.Subset.refl _
      · exact fun e he => ih _ (relaxed_visit rev _ _ _ he)

/-- What every visit keeps while the recorded evaluations are admitted holds at the end
of a converged loop, where the heap is empty. -/
theorem prioLoop_induct {P : PrioState → Prop} {Q : Relaxation → Prop}
    (hvisit : ∀ (st st' : PrioState) (top : Nat ×ₗ Nat) (heap : LabelHeap), P st →
      st.heap.pop = some (top, heap) → st'.vi = st.vi → st'.heap = heap →
      st'.settled = st.settled →
      (∀ e ∈ (st'.visit rev labelSetting (ofLex top).1 (ofLex top).2).relaxed, Q e) →
      P (st'.visit rev labelSetting (ofLex top).1 (ofLex top).2)) (fuel : Nat) :
    ∀ {st : PrioState}, P st →
      (prioLoop rev labelSetting obs stride fuel st).stats.converged = true →
      (∀ e ∈ (prioLoop rev labelSetting obs stride fuel st).relaxed, Q e) →
      ∃ st' : PrioState, P st' ∧ st'.heap.pop = none ∧
        (prioLoop rev labelSetting obs stride fuel st).vi = st'.vi := by
  induction fuel with
  | zero =>
    intro st h hconv _
    unfold prioLoop at hconv ⊢
    cases hpop : st.heap.pop with
    | none => exact ⟨st, h, hpop, rfl⟩
    | some e =>
      rw [hpop] at hconv
      cases hconv
  | succ fuel ih =>
    intro st h hconv hrec
    unfold prioLoop at hconv hrec ⊢
    cases hpop : st.heap.pop with
    | none => exact ⟨st, h, hpop, rfl⟩
    | some e =>
      obtain ⟨top, heap⟩ := e
      rw [hpop] at hconv hrec
      simp only at hconv hrec ⊢
      have hnext : ∀ st' : PrioState, st'.vi = st.vi → st'.heap = heap →
          st'.settled = st.settled →
          (∀ e ∈ (prioLoop rev labelSetting obs stride fuel
            (st'.visit rev labelSetting (ofLex top).1 (ofLex top).2)).relaxed, Q e) →
          P (st'.visit rev labelSetting (ofLex top).1 (ofLex top).2) := by
        intro st' hvi hheap hset hall
        exact hvisit st st' top heap h hpop hvi hheap hset fun e he =>
          hall e (relaxed_prioLoop _ _ he)
      split at hconv
      · next hdue =>
        simp only [if_pos hdue] at hrec ⊢
        split at hconv
        · next hflow =>
          simp only [hflow] at hrec ⊢
          exact ih (hnext _ rfl rfl rfl hrec) hconv hrec
        · cases hconv
      · next hdue =>
        simp only [if_neg hdue] at hrec ⊢
        exact ih (hnext _ rfl rfl rfl hrec) hconv hrec

end Record

section Seeds

variable {vi : ValueIterator}

theorem mem_foldl_push (ps : List Pos) : ∀ (h : LabelHeap) (e : Nat ×ₗ Nat),
    e ∈ ps.foldl (fun heap q => heap.push (vi.label q)) h ↔ e ∈ h ∨ ∃ q ∈ ps, e = vi.label q := by
  induction ps with
  | nil => intro h e; simp
  | cons q ps ih =>
    intro h e
    rw [List.foldl_cons, ih, MinHeap.mem_push]
    simp only [List.mem_cons, exists_eq_or_imp]
    tauto

theorem mem_seedHeap_iff {e : Nat ×ₗ Nat} :
    e ∈ vi.seedHeap ↔ ∃ p, vi.dims.Contains p ∧ vi.costs p < maxCost ∧ e = vi.label p := by
  rw [ValueIterator.seedHeap, mem_foldl_push]
  simp only [MinHeap.not_mem_empty, false_or, List.mem_filter, Dims.mem_all, decide_eq_true_eq,
    and_assoc]

end Seeds

end ValueIteration
