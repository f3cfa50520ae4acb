import ValueIteration.Lib.CountingSort
import ValueIteration.Lib.Handshake
import ValueIteration.Solvers.Priority
import ValueIteration.Solvers.Sequential
import ValueIteration.Solvers.Words

/-!
# The ordered sweep

`ordered_sweep` starts from any field. A pass sorts the states it has to look at into
buckets by their values and evaluates the buckets in ascending order, each in parallel; a
state that moves marks the states that can lead to it, and those are the next pass. Loads
and stores are sequentially consistent.
-/

set_option autoImplicit false

namespace ValueIteration

open Async ValueIterator CellModel

/-- `BUCKET_SHIFT`. -/
def bucketShift : Nat := 16

/-- `MAX_BUCKETS`. -/
def maxBuckets : Nat := 16384

/-- `BLOCK`. -/
def orderedBlock : Nat := 256

structure OrderedOutcome where
  passes : Nat
  updates : Nat
  converged : Bool
  deriving DecidableEq, Repr

/-- What a pass was given, in which order it was finished, and what it left. -/
structure OrderedPass where
  items : List Int
  finished : List Int
  next : List Int
  mem : Int → Nat

structure OrderedState where
  mem : Int → Nat
  dirty : Int → Bool
  items : List Int
  passes : Nat
  updates : Nat
  trace : List OrderedPass
  writes : List (Int × Nat)

structure OrderedRun where
  field : ValueIterator
  outcome : OrderedOutcome
  trace : List OrderedPass
  writes : List (Int × Nat)

/-- The key of a state, its value at the start of the pass. -/
def bucketKey (v : Nat) : Nat :=
  if maxCost ≤ v then maxBuckets else min (v >>> bucketShift) maxBuckets

/-- The buckets of a pass that are not empty, in ascending order. -/
def orderedBuckets (mem : Int → Nat) (items : List Int) : List (List Int) :=
  CountingSort.groups (fun p => bucketKey (mem p)) (maxBuckets + 1)
    (List.replicate items.length 0) items

namespace ValueIterator

variable (vi : ValueIterator)

/-- `rev_off`: from a landing heading back to the sources, as offsets. -/
def revOff : List (List Int) :=
  (List.range vi.dims.nt).map fun it =>
    (vi.buildRevTheta.getD it []).map fun d =>
      (ofLex (ofLex d).2).2 - it - (ofLex d).1 * vi.dims.nt - (ofLex (ofLex d).2).1 * vi.rowStride

/-- `update_state`: the new value if it is another one. -/
def updateState (p : Int) : Prog Int Nat (Option Nat) :=
  let it := p % vi.dims.nt
  let base := p - it
  .load p fun before =>
    ((Padded.build vi).cells.thetaCost vi.buildPrecomp base it.toNat).bind fun minCost =>
      .ret (if minCost = before then none else some minCost)

/-- An index of the padded grid that is evaluated. -/
def onSweep (q : Int) : Bool :=
  decide (0 ≤ q) && decide (q < vi.padDims.count) && (Padded.build vi).free.getFlat q &&
    !(Padded.build vi).finals.getFlat q

/-- Whom a move of `p` makes dirty. -/
def revPreds (p : Int) : List Int :=
  ((vi.revOff.getD (p % vi.dims.nt).toNat []).map (p + ·)).filter vi.onSweep

def orderedPass : Handshake.Sweep Int Nat := ⟨orderedBlock, vi.updateState, vi.revPreds⟩

/-- The first items: every free state that is not final. -/
def orderedItems : List Int :=
  ((List.range vi.padDims.count).map fun (i : Nat) => (i : Int)).filter fun q =>
    (Padded.build vi).free.getFlat q && !(Padded.build vi).finals.getFlat q

/-- The loop over the passes; the first argument after the bucketing is
`max_passes - passes`. -/
def orderedLoop (nthreads : Nat) (sched : Nat → Nat → List Nat) (joins : Nat → List Nat)
    (buckets : (Int → Nat) → List Int → List (List Int)) :
    Nat → OrderedState → Option OrderedState
  | 0, st => some st
  | fuel + 1, st =>
    if st.items.isEmpty then some st
    else
      (vi.orderedPass.pass nthreads (sched st.passes) (joins st.passes)
        (buckets st.mem st.items) st.mem st.dirty).bind fun r =>
          orderedLoop nthreads sched joins buckets fuel
            { mem := r.mem
              dirty := r.dirty
              items := r.next
              passes := st.passes + 1
              updates := st.updates + r.finished.length
              trace := st.trace ++ [⟨st.items, r.finished, r.next, r.mem⟩]
              writes := st.writes ++ r.writes }

def orderedStart : OrderedState where
  mem := (Padded.build vi).words
  dirty := vi.orderedItems.foldl (fun d p => Function.update d p true) fun _ => false
  items := vi.orderedItems
  passes := 0
  updates := 0
  trace := []
  writes := []

/-- The final policy and the values, written back. -/
def orderedEnd (st : OrderedState) : OrderedRun :=
  let m := (Padded.build vi).cells
  ⟨vi.writeBack m st.mem (vi.finalPolicy m m.skip st.mem),
    ⟨st.passes, st.updates, st.items.isEmpty⟩, st.trace, st.writes⟩

/-- `ordered_sweep`. In pass `n` the workers take turns in bucket `b` as `sched n b` says and
hand in their lists in the order `joins n`; `none` for schedules that end before a barrier. -/
def orderedSweep (nthreads maxPasses : Nat) (sched : Nat → Nat → List Nat)
    (joins : Nat → List Nat) : Option OrderedRun :=
  (vi.orderedLoop nthreads sched joins orderedBuckets maxPasses vi.orderedStart).map vi.orderedEnd

end ValueIterator

section Buckets

theorem bucketKey_lt (v : Nat) : bucketKey v < maxBuckets + 1 := by
  unfold bucketKey
  split <;> omega

/-- Whatever the keys, every item is in one bucket. -/
theorem orderedBuckets_perm (mem : Int → Nat) (items : List Int) :
    (orderedBuckets mem items).flatten.Perm items :=
  CountingSort.groups_perm (fun _ _ => bucketKey_lt _) List.length_replicate

/-- The buckets in the order of the keys that occur, for evaluation. -/
def keyBuckets (mem : Int → Nat) (items : List Int) : List (List Int) :=
  ((items.map fun p => bucketKey (mem p)).dedup.insertionSort (· ≤ ·)).map fun b =>
    items.filter fun p => bucketKey (mem p) = b

theorem orderedBuckets_eq : orderedBuckets = keyBuckets := by
  funext mem items
  let key : Int → Nat := fun p => bucketKey (mem p)
  have hsort : (List.range (maxBuckets + 1)).filter (fun b => (items.map key).contains b) =
      (items.map key).dedup.insertionSort (· ≤ ·) := by
    apply List.Perm.eq_of_sortedLE
    · exact ((List.pairwise_lt_range.imp fun h => Nat.le_of_lt h).filter _).sortedLE
    · exact (List.pairwise_insertionSort _ _).sortedLE
    · apply (List.perm_ext_iff_of_nodup (List.nodup_range.filter _)
        ((List.perm_insertionSort _ _).nodup_iff.mpr (List.nodup_dedup _))).mpr
      intro b
      rw [List.mem_filter, List.mem_insertionSort, List.mem_dedup, List.contains_iff_mem]
      refine ⟨fun h => h.2, fun h => ⟨?_, h⟩⟩
      obtain ⟨p, _, rfl⟩ := List.mem_map.mp h
      exact List.mem_range.mpr (bucketKey_lt _)
  have hgroups : CountingSort.groups key (maxBuckets + 1) (List.replicate items.length 0) items =
      ((List.range (maxBuckets + 1)).filter fun b => (items.map key).contains b).map
        fun b => items.filter (key · = b) :=
    CountingSort.groups_eq (fun _ _ => bucketKey_lt _) List.length_replicate
  rw [hsort] at hgroups
  exact hgroups

end Buckets

section Indices
variable {vi : ValueIterator}

theorem padIdx_emod {s : Pos} (hs : vi.dims.Contains s) : vi.padIdx s % vi.dims.nt = s.it := by
  obtain ⟨_, _, ht0, ht1⟩ := hs
  have hsplit : vi.padIdx s =
      s.it + vi.dims.nt * ((s.ix + vi.mx) + (s.iy + vi.my) * vi.padDims.nx) := by
    simp only [padIdx, padCol, rowStride]
    ring
  rw [hsplit, Int.add_mul_emod_self_left, Int.emod_eq_of_lt ht0 ht1]

theorem padIdx_sub_it (s : Pos) : vi.padIdx s - s.it = vi.padCol s.ix s.iy := by
  rw [padIdx]
  omega

/-- The states that the sweep evaluates, by index. -/
def Swept (vi : ValueIterator) (p : Int) : Prop :=
  ∃ s, vi.world.evaluable s = true ∧ p = vi.padIdx s

/-- Whose words an evaluation may load. -/
def Loads (vi : ValueIterator) (p q : Int) : Prop :=
  ∃ s, vi.world.evaluable s = true ∧ p = vi.padIdx s ∧ q ∈ outcomeLocs vi s

/-- What an evaluation computes. -/
def sweptValue (vi : ValueIterator) (mem : Int → Nat) (p : Int) : Nat :=
  ((Padded.build vi).cells.thetaCost vi.buildPrecomp (p - p % vi.dims.nt)
    (p % vi.dims.nt).toNat).peek mem

theorem updateState_padIdx {s : Pos} (hs : vi.dims.Contains s) : vi.updateState (vi.padIdx s) =
    .load (vi.padIdx s) fun before =>
      ((Padded.build vi).cells.thetaCost vi.buildPrecomp (vi.padCol s.ix s.iy) s.it.toNat).bind
        fun minCost => .ret (if minCost = before then none else some minCost) := by
  simp only [updateState, padIdx_emod hs, padIdx_sub_it]

theorem sweptValue_padIdx {s : Pos} (hs : vi.dims.Contains s) (mem : Int → Nat) :
    sweptValue vi mem (vi.padIdx s) =
      (vi.world.backup vi.world.clampedCost ((Padded.build vi).cells.field vi mem) s).1 := by
  have hstands : StandsFor vi (Padded.build vi).cells (fun _ _ => True) mem
      ((Padded.build vi).cells.field vi mem) :=
    ⟨fun _ => trivial, fun p hp => (field_of_contains hp).symm⟩
  rw [sweptValue, padIdx_emod hs, padIdx_sub_it, hstands.thetaCost_peek Padded.models hs]

theorem padIdx_bounds {s : Pos} (hs : OnPad vi s) :
    0 ≤ vi.padIdx s ∧ vi.padIdx s < vi.padDims.count := by
  rw [padIdx_eq_flat]
  exact ⟨Dims.flat_nonneg hs, Dims.flat_lt hs⟩

/-- Every index of the padded grid is that of one of its positions. -/
theorem exists_onPad {q : Int} (h0 : 0 ≤ q) (h : q < vi.padDims.count) :
    ∃ s, OnPad vi s ∧ q = vi.padIdx s := by
  obtain ⟨hcon, hflat⟩ := Dims.unflat_spec (d := vi.padDims) (i := q.toNat) (by omega)
  refine ⟨⟨(vi.padDims.unflat q.toNat).ix - vi.mx, (vi.padDims.unflat q.toNat).iy - vi.my,
    (vi.padDims.unflat q.toNat).it⟩, ?_, ?_⟩
  · simpa only [OnPad, Int.sub_add_cancel] using hcon
  · rw [padIdx_eq_flat]
    simp only [Int.sub_add_cancel]
    have hnonneg := Dims.flat_nonneg hcon
    have hsame : vi.padDims.flat (vi.padDims.unflat q.toNat) = q := by omega
    exact hsame.symm

/-- What is free and not final in the padded grid is a state that is evaluated. -/
theorem swept_iff {q : Int} : Swept vi q ↔ vi.onSweep q = true := by
  have hword : ∀ s, OnPad vi s → ((Padded.build vi).free.getFlat (vi.padIdx s) &&
      !(Padded.build vi).finals.getFlat (vi.padIdx s)) = vi.world.evaluable s := by
    intro s hs
    rw [padded_free hs, padded_finals hs]
    by_cases hcon : vi.dims.Contains s
    · simp only [if_pos hcon, world, decide_eq_true hcon, State.evaluable, Bool.true_and]
    · simp only [if_neg hcon, world, decide_eq_false hcon, Bool.false_and]
  simp only [onSweep, Bool.and_assoc, Bool.and_eq_true, decide_eq_true_eq]
  rw [← Bool.and_eq_true]
  constructor
  · rintro ⟨s, hev, rfl⟩
    have hpad := onPad_of_contains (evaluable_iff.mp hev).1
    obtain ⟨h0, hlt⟩ := padIdx_bounds hpad
    exact ⟨h0, hlt, (hword s hpad).trans hev⟩
  · rintro ⟨h0, hlt, hok⟩
    obtain ⟨s, hs, rfl⟩ := exists_onPad h0 hlt
    exact ⟨s, (hword s hs).symm.trans hok, rfl⟩

/-- Every reader of a moved state is marked. -/
theorem mem_revPreds {p q : Int} (hp : Swept vi p) (hq : Swept vi q) (h : Loads vi p q) :
    p ∈ vi.revPreds q := by
  obtain ⟨s, hs, rfl, a, ha, tr, htr, hout⟩ := h
  obtain ⟨t, ht, rfl⟩ := hq
  have hcs := (evaluable_iff.mp hs).1
  have hct := (evaluable_iff.mp ht).1
  have hpos := padIdx_injective (onPad_of_contains hct) (outcome_onPad ha hcs htr) hout
  subst hpos
  obtain ⟨d, hd, hpred⟩ := exists_pred_of_outcome hcs ha htr hct
  have hheading : (vi.outcomePos s tr).it.toNat < vi.dims.nt := by
    have := hct.2.2
    omega
  refine List.mem_filter.mpr ⟨List.mem_map.mpr ⟨vi.padIdx s - vi.padIdx (vi.outcomePos s tr), ?_,
    by omega⟩, swept_iff.mp hp⟩
  rw [padIdx_emod hct, revOff, List.getD_eq_getElem?_getD, List.getElem?_map,
    List.getElem?_range hheading, Option.map_some, Option.getD_some]
  refine List.mem_map.mpr ⟨d, hd, ?_⟩
  have hit : (((vi.outcomePos s tr).it.toNat : Nat) : Int) = (vi.outcomePos s tr).it := by
    have := hct.2.2
    omega
  have hs : vi.padIdx s = vi.padIdx (predPos (vi.outcomePos s tr) d) := by rw [hpred]
  rw [hs, hit]
  simp only [padIdx, padCol, predPos]
  ring

/-- The laws of the flags. -/
theorem orderedPass_lawful (vi : ValueIterator) :
    vi.orderedPass.Lawful (Swept vi) (Loads vi) (sweptValue vi) where
  loads := by
    rintro p ⟨s, hs, rfl⟩
    have hcs := (evaluable_iff.mp hs).1
    have hupdate := updateState_padIdx hcs
    simp only [orderedPass]
    rw [hupdate]
    refine ⟨Or.inl rfl, fun before => Prog.loadsFrom_bind ?_ fun _ => trivial⟩
    refine Handshake.loadsFrom_mono (thetaCost_loadsFrom hcs) ?_
    exact fun q hq => Or.inr ⟨s, hs, rfl, hq⟩
  result := by
    rintro m p ⟨s, hs, rfl⟩
    have hupdate := updateState_padIdx (evaluable_iff.mp hs).1
    simp only [orderedPass]
    rw [hupdate, Prog.peek_load, Prog.peek_bind, Prog.peek_ret, sweptValue,
      padIdx_emod (evaluable_iff.mp hs).1, padIdx_sub_it]
  reads_only := by
    rintro m m' p ⟨s, hs, rfl⟩ h
    have hcs := (evaluable_iff.mp hs).1
    rw [sweptValue, sweptValue, padIdx_emod hcs, padIdx_sub_it]
    exact Handshake.peek_congr (thetaCost_loadsFrom hcs) fun q hq => h q ⟨s, hs, rfl, hq⟩
  preds_dom := fun p _ q hq => swept_iff.mpr (List.mem_filter.mp hq).2
  announced := fun p q hp hq h => mem_revPreds hp hq h

end Indices

end ValueIteration
