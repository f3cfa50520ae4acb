import ValueIteration.Solvers.WriteBack

/-!
# What converges on words

A state outside the next candidates holds a word that its own evaluation would leave
alone, whatever the words are. In the fused layout a penalty can turn a reached value
into the sentinel, so the words in between need not stand for values; but a word that
is not the sentinel belongs to a state with a founded chain of actions down to a
final, and where nothing moves any more every founded state is reached.
-/

set_option autoImplicit false

namespace ValueIteration

open Async ValueIterator CellModel

variable {vi : ValueIterator}

namespace CellModel

/-- The locations of a state's outcomes. -/
def outcomeLocs (vi : ValueIterator) (s : Pos) : Set Int :=
  {i | ∃ a ∈ vi.actions, ∃ tr ∈ a.row s.it, i = vi.padIdx (vi.outcomePos s tr)}

section Loads
variable {m : CellModel} {fin mem : Int → Nat} {P : Int → Nat → Prop}

theorem actionCost_loadsFrom {S : Set Int} (col : Int) (row : List (Int × Nat)) :
    (∀ b ∈ row, col + b.1 ∈ S) → ∀ cost, (m.actionCost col row cost).LoadsFrom S := by
  induction row with
  | nil => intro _ cost; trivial
  | cons bucket rest ih =>
    intro hS cost
    have hrest := ih fun b hb => hS b (List.mem_cons_of_mem _ hb)
    unfold actionCost
    simp only
    split
    · trivial
    · refine ⟨hS bucket List.mem_cons_self, ?_⟩
      intro h
      simp only
      split
      · trivial
      · exact hrest _

theorem minCost_loadsFrom {S : Set Int} (ps : List (Prog Int Nat Nat)) :
    (∀ p ∈ ps, p.LoadsFrom S) → ∀ best, (minCost ps best).LoadsFrom S := by
  induction ps with
  | nil => intro _ best; trivial
  | cons p ps ih =>
    intro h best
    exact Prog.loadsFrom_bind (h p List.mem_cons_self) fun c =>
      ih (fun q hq => h q (List.mem_cons_of_mem _ hq)) _

theorem thetaCost_loadsFrom {s : Pos} (hs : vi.dims.Contains s) :
    (m.thetaCost vi.buildPrecomp (vi.padCol s.ix s.iy) s.it.toNat).LoadsFrom
      (outcomeLocs vi s) := by
  rw [thetaCost, rows_buildPrecomp hs, List.map_map]
  apply minCost_loadsFrom
  intro p hp
  obtain ⟨a, ha, rfl⟩ := List.mem_map.mp hp
  apply actionCost_loadsFrom
  intro b hb
  obtain ⟨tr, htr, rfl⟩ := List.mem_map.mp hb
  exact ⟨a, ha, tr, htr, padCol_add_padOffset s tr⟩

/-- An action cost other than `MAX_COST` weighed every outcome. -/
theorem actionCost_weighs (col : Int) (row : List (Int × Nat)) : ∀ cost,
    (m.actionCost col row cost).Keeps fin P fun r => r ≠ maxCost →
      ∀ b ∈ row, ∃ h, P (col + b.1) h ∧ m.weigh (col + b.1) h ≠ none := by
  induction row with
  | nil =>
    intro cost _ b hb
    cases hb
  | cons bucket rest ih =>
    intro cost
    unfold actionCost
    simp only
    split
    · exact fun h => absurd rfl h
    · intro h hPh
      simp only
      split
      · exact fun hne => absurd rfl hne
      · next x hx =>
        refine (ih _).mono ?_
        intro r hr hne b hb
        rcases List.mem_cons.mp hb with rfl | hb
        · exact ⟨h, hPh, by rw [hx]; exact Option.some_ne_none x⟩
        · exact hr hne b hb

theorem thetaCost_weighs (fin : Int → Nat) (P : Int → Nat → Prop) {s : Pos}
    (hs : vi.dims.Contains s) :
    (m.thetaCost vi.buildPrecomp (vi.padCol s.ix s.iy) s.it.toNat).Keeps fin P fun v =>
      v ≠ maxCost → ∃ a ∈ vi.actions, ∀ tr ∈ a.row s.it, ∃ h,
        P (vi.padIdx (vi.outcomePos s tr)) h ∧
          m.weigh (vi.padIdx (vi.outcomePos s tr)) h ≠ none := by
  rw [thetaCost, rows_buildPrecomp hs, List.map_map]
  refine (minCost_keeps (R := fun a r => r ≠ maxCost → ∀ tr ∈ a.row s.it, ∃ h,
    P (vi.padIdx (vi.outcomePos s tr)) h ∧ m.weigh (vi.padIdx (vi.outcomePos s tr)) h ≠ none)
    vi.actions ?_ maxCost).mono ?_
  · intro a _
    refine (actionCost_weighs _ _ 0).mono ?_
    intro r hr hne tr htr
    have h := hr hne _ (List.mem_map_of_mem (f := fun tr => (vi.padOffset tr, tr.prob)) htr)
    rwa [padCol_add_padOffset] at h
  · rintro r ⟨cs, hcs, rfl⟩ hne
    rw [← Argmin.scan_fst cs 0 (maxCost, none)] at hne
    rcases Argmin.argminBelow_fst_mem maxCost cs with h | h
    · exact absurd h hne
    · obtain ⟨a, ha, hval⟩ := exists_left_of_forall₂ hcs h
      exact ⟨a, ha, hval hne⟩

theorem actionCost_lt (col : Int) (row : List (Int × Nat)) :
    (∀ b ∈ row, m.blocked (col + b.1) = false ∧ m.weigh (col + b.1) (mem (col + b.1)) ≠ none) →
      ∀ cost, cost < word → (m.actionCost col row cost).peek mem < productLimit := by
  induction row with
  | nil =>
    intro _ cost hcost
    unfold actionCost
    rw [Prog.peek_ret, shiftRight_probBaseBit]
    exact div_probBase_lt hcost
  | cons bucket rest ih =>
    intro hrow cost _
    obtain ⟨hvis, hne⟩ := hrow bucket List.mem_cons_self
    obtain ⟨x, hx⟩ := Option.ne_none_iff_exists'.mp hne
    unfold actionCost
    simp only [hvis, Bool.false_eq_true, if_false, Prog.peek_load, hx]
    exact ih (fun b hb => hrow b (List.mem_cons_of_mem _ hb)) _ (wrappingAdd_lt _ _)

/-- Where every outcome of an action can be weighed the minimum is below `MAX_COST`. -/
theorem thetaCost_lt {s : Pos} (hs : vi.dims.Contains s) {a : Action} (ha : a ∈ vi.actions)
    (hrow : ∀ tr ∈ a.row s.it, m.blocked (vi.padIdx (vi.outcomePos s tr)) = false ∧
      m.weigh (vi.padIdx (vi.outcomePos s tr)) (mem (vi.padIdx (vi.outcomePos s tr))) ≠ none) :
    (m.thetaCost vi.buildPrecomp (vi.padCol s.ix s.iy) s.it.toNat).peek mem < productLimit := by
  have hkeeps : (m.thetaCost vi.buildPrecomp (vi.padCol s.ix s.iy) s.it.toNat).Keeps mem
      (fun i h => i ∈ Set.univ → h = mem i) fun v => v ≤ (m.actionCost (vi.padCol s.ix s.iy)
        ((a.row s.it).map fun tr => (vi.padOffset tr, tr.prob)) 0).peek mem := by
    rw [thetaCost, rows_buildPrecomp hs, List.map_map]
    refine (minCost_keeps (R := fun a c => c = (m.actionCost (vi.padCol s.ix s.iy)
      ((a.row s.it).map fun tr => (vi.padOffset tr, tr.prob)) 0).peek mem)
      vi.actions ?_ maxCost).mono ?_
    · intro b _
      exact (actionCost_loadsFrom _ _ (fun _ _ => Set.mem_univ _) 0).keeps
    · rintro r ⟨cs, hcs, rfl⟩
      obtain ⟨c, hc, rfl⟩ := exists_right_of_forall₂ hcs ha
      rw [← Argmin.scan_fst cs 0 (maxCost, none)]
      exact Argmin.argminBelow_le_mem hc
  refine (hkeeps.peek (fun _ _ => rfl) (thetaCost_readOnly _ _ _)).trans_lt ?_
  apply actionCost_lt
  · intro b hb
    obtain ⟨tr, htr, rfl⟩ := List.mem_map.mp hb
    simp only [padCol_add_padOffset]
    exact hrow tr htr
  · decide

end Loads

/-- The location of a state holds what its evaluation would leave alone. -/
def AtRest (m : CellModel) (vi : ValueIterator) (mem : Int → Nat) (s : Pos) : Prop :=
  (m.thetaCost vi.buildPrecomp (vi.padCol s.ix s.iy) s.it.toNat).peek mem =
    m.before (vi.padIdx s) (mem (vi.padIdx s))

/-- Evaluated states outside `E` are settled. -/
def RestsOff (m : CellModel) (vi : ValueIterator) (E : Set Pos) (mem : Int → Nat) : Prop :=
  ∀ s, vi.world.evaluable s = true → s ∉ E → m.AtRest vi mem s

end CellModel

/-- The states with a moved one in their box. -/
def boxOf (vi : ValueIterator) (changed : List CellMoves) : Set Pos :=
  {s | ∃ t, vi.InBox s t ∧ Moved changed t}

section Round
variable {m : CellModel} {Proper : Int → Nat → Prop} {cands : List (Nat × Nat)}
  {its : Nat × Nat → List Nat} {mem fin : Int → Nat} {logs : List (List CellMoves)}
  {nthreads : Nat} {sched : List (Nat × Bool)}

/-- A round settles every state without a move in its box. -/
theorem round_rests (hm : m.Models vi Proper) (hcand : Candidates vi cands its)
    (hn : 0 < nthreads)
    (hrun : (m.round vi cands its).run nthreads mem sched = some (fin, logs))
    (hrest : m.RestsOff vi (activeSet cands its) mem) :
    m.RestsOff vi (boxOf vi logs.flatten) fin := by
  obtain ⟨hspec, hlog, hframe⟩ := round_moves hm hcand hn hrun
  intro s hev hnot
  have hs := (evaluable_iff.mp hev).1
  have hself : ¬ Moved logs.flatten s := fun h => hnot ⟨s, inBox_self hs, h⟩
  have hown : fin (vi.padIdx s) = mem (vi.padIdx s) :=
    hframe s hs fun c moves hc e he heq => hself ⟨c, moves, hc, e, he, heq⟩
  have hsame : ∀ i ∈ outcomeLocs vi s, fin i = mem i := by
    rintro i ⟨a, ha, tr, htr, rfl⟩
    by_cases ht : vi.dims.Contains (vi.outcomePos s tr)
    · apply hframe _ ht
      intro c moves hc e he heq
      exact hnot ⟨_, outcome_inBox ha hs htr, c, moves, hc, e, he, heq⟩
    · exact round_padding hcand hn hrun (outcome_onPad ha hs htr) ht
  have hloads := thetaCost_loadsFrom (m := m) hs
  have hpeek : (m.thetaCost vi.buildPrecomp (vi.padCol s.ix s.iy) s.it.toNat).peek fin =
      (m.thetaCost vi.buildPrecomp (vi.padCol s.ix s.iy) s.it.toNat).peek mem :=
    @Prog.Keeps.peek _ _ _ fin _ _ fin _ hloads.keeps hsame (thetaCost_readOnly _ _ _)
  rw [CellModel.AtRest, hown]
  by_cases hact : s ∈ activeSet cands its
  · obtain ⟨c, hc, it, hit, rfl⟩ := hact
    obtain ⟨moves, hmoves⟩ := hlog c hc
    have hcomp := (hspec c moves hmoves).2.unmoved it hit hev fun e he heq =>
      hself ⟨c, moves, hmoves, e, he, by rw [heq]⟩
    -- all loads of an unmoved state return the words after the round
    have hval := hcomp (fun i h => i ∈ outcomeLocs vi (thetaPos c it) → h = fin i) _
      (fun i hi => (hsame i hi).symm) (fun _ _ => rfl) hloads.keeps
    exact hval.symm
  · rw [hpeek]
    exact hrest s hev hact

end Round

/-- A free final that its word does not hide, or a state with an action all of whose
outcomes are founded. -/
inductive Founded (vi : ValueIterator) : Pos → Prop
  | final {p : Pos} : vi.dims.Contains p → (vi.stateAt p).free = true →
      (vi.stateAt p).finalState = true → vi.world.pen p ≠ unreached → Founded vi p
  | step {s : Pos} {a : Action} : vi.world.evaluable s = true → a ∈ vi.actions →
      (∀ tr ∈ a.row s.it, Founded vi (vi.outcomePos s tr)) → Founded vi s

theorem Founded.free {p : Pos} (h : Founded vi p) :
    vi.dims.Contains p ∧ (vi.stateAt p).free = true := by
  cases h with
  | final hp hfree _ _ => exact ⟨hp, hfree⟩
  | step hev _ _ => exact ⟨(evaluable_iff.mp hev).1, (evaluable_iff.mp hev).2.1⟩

/-- Only founded states hold a word other than the sentinel, and the words of states
that are not evaluated are the start's. -/
structure FoundedWords (vi : ValueIterator) (mem : Int → Nat) : Prop where
  founded : ∀ p, OnPad vi p → mem (vi.padIdx p) ≠ unreached → Founded vi p
  still : ∀ p, vi.dims.Contains p → vi.world.evaluable p = false →
    mem (vi.padIdx p) = (Fused.buildDirect vi).words (vi.padIdx p)

section Fused
variable {cands : List (Nat × Nat)} {its : Nat × Nat → List Nat} {mem fin : Int → Nat}
  {logs : List (List CellMoves)} {nthreads : Nat} {sched : List (Nat × Bool)}

theorem fused_weigh {i : Int} {h : Nat} :
    (Fused.buildDirect vi).cells.weigh i h ≠ none ↔ h ≠ unreached := by
  simp only [Fused.cells, beq_iff_eq]
  split
  · next heq => simp [heq]
  · next hne => simp [hne]

theorem Fused.round_founded (hcand : Candidates vi cands its) (hn : 0 < nthreads)
    (hrun : ((Fused.buildDirect vi).cells.round vi cands its).run nthreads mem sched =
      some (fin, logs)) (hmem : FoundedWords vi mem) : FoundedWords vi fin := by
  let m := (Fused.buildDirect vi).cells
  obtain ⟨hspec, _, hframe⟩ := CellModel.round_moves Fused.models hcand hn hrun
  refine ⟨?_, ?_⟩
  · let P : Int → Nat → Prop := fun i h =>
      ∀ p, OnPad vi p → i = vi.padIdx p → h ≠ unreached → Founded vi p
    have hkeep : ∀ i, P i (fin i) := by
      refine Round.run_keeps hcand.lawful hrun ?_ ?_
      · intro c hc
        refine CellModel.evalThetas_stores Fused.models (hcand.inMap c hc) _
          (hcand.headings c hc).2 (fun it hit _ => thetaCost_weighs fin P
            (thetaPos_contains (hcand.inMap c hc) ((hcand.headings c hc).2 it hit))) ?_
        intro it hit hev h v i hPh hv hne _ p hp heq _
        have hcon := thetaPos_contains (hcand.inMap c hc) ((hcand.headings c hc).2 it hit)
        have hps := padIdx_injective hp (onPad_of_contains hcon) heq.symm
        subst hps
        by_cases hmax : v = maxCost
        · -- a reached state that is given up was founded before
          apply hPh _ hp rfl
          intro hun
          apply hne
          rw [hmax, fused_before hcon, if_pos hun]
        · obtain ⟨a, ha, hrow⟩ := hv hmax
          refine Founded.step hev ha ?_
          intro tr htr
          obtain ⟨g, hPg, hg⟩ := hrow tr htr
          exact hPg _ (outcome_onPad ha hcon htr) rfl (fused_weigh.mp hg)
      · rintro i p hp rfl hne
        exact hmem.founded p hp hne
    exact fun p hp hne => hkeep _ p hp rfl hne
  · intro p hp hev
    rw [hframe p hp, hmem.still p hp hev]
    rintro c moves hc e he rfl
    obtain ⟨_, hmoves⟩ := hspec c moves hc
    rw [(hmoves.moved e he).2.1] at hev
    cases hev

theorem foundedWords_start (hblank : vi.Blank) : FoundedWords vi (Fused.buildDirect vi).words := by
  refine ⟨?_, fun _ _ _ => rfl⟩
  intro p hpad hne
  rw [Fused.words, fused_cp hpad] at hne
  by_cases hp : vi.dims.Contains p
  · rw [if_pos hp] at hne
    split at hne
    · next hreach =>
      simp only [Bool.and_eq_true, bne_iff_ne, ne_eq] at hreach
      have hfin : (vi.stateAt p).finalState = true := by
        by_contra hfin
        exact hreach.2 ((hblank p hp).trans (if_neg hfin))
      rw [hblank p hp, if_pos hfin, wrappingAdd, Nat.zero_add, Nat.mod_eq_of_lt (pen_lt_word p)]
        at hne
      exact .final hp hreach.1 hfin hne
    · exact absurd rfl hne
  · rw [if_neg hp] at hne
    exact absurd rfl hne

/-- At the start a state with no reached state in its box is at rest. -/
theorem rests_start {E : Set Pos} (hle : ∀ p, vi.dims.Contains p → vi.costs p ≤ maxCost)
    (hE : ∀ s t, vi.dims.Contains s → vi.dims.Contains t → vi.InBox s t → vi.costs t < maxCost →
      s ∈ E) : (Fused.buildDirect vi).cells.RestsOff vi E (Fused.buildDirect vi).words := by
  intro s hev hnot
  have hs := (evaluable_iff.mp hev).1
  have hun : ∀ t, OnPad vi t → vi.InBox s t → (Fused.buildDirect vi).words (vi.padIdx t) =
      unreached := by
    intro t hpad hbox
    rw [Fused.words, fused_cp hpad]
    split
    · next ht =>
      have hmax : vi.costs t = maxCost := by
        by_contra hne
        exact hnot (hE s t hs ht hbox (lt_of_le_of_ne (hle t ht) hne))
      rw [hmax]
      simp
    · rfl
  rw [CellModel.AtRest, fused_before hs, hun s (onPad_of_contains hs) (inBox_self hs), if_pos rfl]
  by_contra hne
  have hweigh := (thetaCost_weighs (m := (Fused.buildDirect vi).cells)
    (Fused.buildDirect vi).words (fun i h => h = (Fused.buildDirect vi).words i) hs).peek
      (fun _ => rfl) (thetaCost_readOnly _ _ _)
  obtain ⟨a, ha, hrow⟩ := hweigh hne
  obtain ⟨tr, htr⟩ := List.exists_mem_of_ne_nil _ (actionRow_ne_nil ha hs)
  obtain ⟨h, rfl, hh⟩ := hrow tr htr
  exact fused_weigh.mp hh (hun _ (outcome_onPad ha hs htr) (outcome_inBox ha hs htr))

/-- Where every state is at rest the founded ones are reached. -/
theorem Founded.reached (hblank : vi.Blank)
    (hrest : (Fused.buildDirect vi).cells.RestsOff vi ∅ mem) (hmem : FoundedWords vi mem) {p : Pos}
    (h : Founded vi p) : mem (vi.padIdx p) ≠ unreached ∧
      (Fused.buildDirect vi).cells.before (vi.padIdx p) (mem (vi.padIdx p)) ≠ maxCost := by
  induction h with
  | @final p hp hfree hfin hpen =>
    have hev : vi.world.evaluable p = false := by
      by_contra hne
      have := (evaluable_iff.mp ((Bool.not_eq_false _).mp hne)).2.2
      rw [hfin] at this
      cases this
    have hword : mem (vi.padIdx p) = vi.world.pen p := by
      rw [hmem.still p hp hev, Fused.words, fused_cp (onPad_of_contains hp), if_pos hp,
        hblank p hp, if_pos hfin, hfree, wrappingAdd, Nat.zero_add,
        Nat.mod_eq_of_lt (pen_lt_word p)]
      rfl
    rw [fused_before hp, hword, if_neg hpen]
    refine ⟨hpen, ?_⟩
    have hzero := wrappingSub_wrappingAdd (show 0 < word by decide) (vi.world.pen p)
    rw [wrappingAdd, Nat.zero_add, Nat.mod_eq_of_lt (pen_lt_word p)] at hzero
    rw [hzero]
    decide
  | @step s a hev ha hrow ih =>
    have hs := (evaluable_iff.mp hev).1
    have hlt : ((Fused.buildDirect vi).cells.thetaCost vi.buildPrecomp (vi.padCol s.ix s.iy)
        s.it.toNat).peek mem < productLimit := by
      refine thetaCost_lt hs ha ?_
      intro tr htr
      exact ⟨rfl, fused_weigh.mpr (ih tr htr).1⟩
    rw [hrest s hev (Set.notMem_empty s)] at hlt
    have hne := (hlt.trans productLimit_lt_maxCost).ne
    refine ⟨?_, hne⟩
    intro hun
    rw [fused_before hs, if_pos hun] at hne
    exact hne rfl

end Fused

end ValueIteration
