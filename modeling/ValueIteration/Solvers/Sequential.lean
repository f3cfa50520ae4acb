import ValueIteration.Lib.Solo
import ValueIteration.Solvers.WriteBack

/-!
# One worker sweeps the field in place

With one worker a round evaluates the headings of its candidates in order, each on the
field its predecessor left. A layout whose words go on standing for that field follows
the same sweep, so two layouts that do so make the same moves.
-/

set_option autoImplicit false

namespace ValueIteration

open Async ValueIterator CellModel

/-- The headings of a cell in order; a moved state is written before the next is read. -/
def sweepCell (vi : ValueIterator) (c : Nat × Nat) :
    List Nat → (Pos → Nat) → List (Nat × Nat) × (Pos → Nat)
  | [], V => ([], V)
  | it :: its, V =>
    let s := thetaPos c it
    let v := (vi.world.backup vi.world.clampedCost V s).1
    if vi.world.evaluable s = true ∧ v ≠ V s then
      let r := sweepCell vi c its (Function.update V s v)
      ((it, v) :: r.1, r.2)
    else sweepCell vi c its V

/-- The cells of a list in order. -/
def sweepCells (vi : ValueIterator) : List (Nat × Nat) → (Pos → Nat) → List CellMoves × (Pos → Nat)
  | [], V => ([], V)
  | c :: cs, V =>
    let r := sweepCell vi c (List.range vi.dims.nt) V
    let q := sweepCells vi cs r.2
    ((c, r.1) :: q.1, q.2)

/-- A field after a list of writes. -/
def replay (V : Pos → Nat) (ws : List (Pos × Nat)) : Pos → Nat :=
  ws.foldl (fun V w => Function.update V w.1 w.2) V

/-- Every write of a list is made where the guard holds of the field before it. -/
def Along (guard : (Pos → Nat) → Pos → Prop) : (Pos → Nat) → List (Pos × Nat) → Prop
  | _, [] => True
  | V, w :: ws => guard V w.1 ∧ Along guard (Function.update V w.1 w.2) ws

instance Along.decidable (guard : (Pos → Nat) → Pos → Prop) [∀ V s, Decidable (guard V s)] :
    ∀ V ws, Decidable (Along guard V ws)
  | _, [] => isTrue trivial
  | V, w :: ws =>
    have := Along.decidable guard (Function.update V w.1 w.2) ws
    inferInstanceAs (Decidable (guard V w.1 ∧ _))

theorem along_append {guard : (Pos → Nat) → Pos → Prop} (ws ws' : List (Pos × Nat)) :
    ∀ V, Along guard V (ws ++ ws') ↔ Along guard V ws ∧ Along guard (replay V ws) ws' := by
  induction ws with
  | nil =>
    intro V
    exact ⟨fun h => ⟨trivial, h⟩, fun h => h.2⟩
  | cons w ws ih =>
    intro V
    rw [List.cons_append, Along, Along, ih, and_assoc]
    rfl

theorem along_true (ws : List (Pos × Nat)) : ∀ V, Along (fun _ _ => True) V ws := by
  induction ws with
  | nil => intro V; trivial
  | cons w ws ih => intro V; exact ⟨trivial, ih _⟩

theorem replay_append (V : Pos → Nat) (ws ws' : List (Pos × Nat)) :
    replay V (ws ++ ws') = replay (replay V ws) ws' := List.foldl_append ..

/-- The writes of one cell. -/
def cellWrites (c : Nat × Nat) (moves : List (Nat × Nat)) : List (Pos × Nat) :=
  moves.map fun w => (thetaPos c w.1, w.2)

theorem writesOf_cons (c : Nat × Nat) (moves : List (Nat × Nat)) (changed : List CellMoves) :
    writesOf ((c, moves) :: changed) = cellWrites c moves ++ writesOf changed := rfl

/-- Cells without moves write nothing. -/
theorem writesOf_filter (log : List CellMoves) :
    writesOf (log.filter fun e => !e.2.isEmpty) = writesOf log := by
  induction log with
  | nil => rfl
  | cons e log ih =>
    obtain ⟨c, moves⟩ := e
    cases moves with
    | nil => exact ih
    | cons w moves =>
      rw [List.filter_cons_of_pos (by rfl), writesOf_cons, writesOf_cons, ih]

section Sweep
variable {vi : ValueIterator}

theorem sweepCell_replay (c : Nat × Nat) (its : List Nat) : ∀ V,
    (sweepCell vi c its V).2 = replay V (cellWrites c (sweepCell vi c its V).1) := by
  induction its with
  | nil => intro V; rfl
  | cons it its ih =>
    intro V
    rw [sweepCell]
    simp only
    split
    · exact ih _
    · exact ih V

theorem sweepCells_replay (cs : List (Nat × Nat)) : ∀ V,
    (sweepCells vi cs V).2 = replay V (writesOf (sweepCells vi cs V).1) := by
  induction cs with
  | nil => intro V; rfl
  | cons c cs ih =>
    intro V
    rw [sweepCells]
    simp only
    rw [writesOf_cons, replay_append, ← sweepCell_replay, ih]

end Sweep

/-- The words of a memory stand for a field. -/
structure StandsFor (vi : ValueIterator) (m : CellModel) (Proper : Int → Nat → Prop)
    (mem : Int → Nat) (V : Pos → Nat) : Prop where
  proper : ∀ i, Proper i (mem i)
  value : ∀ p, vi.dims.Contains p → m.before (vi.padIdx p) (mem (vi.padIdx p)) = V p

/-- A layout that can store what an update moves to, where the guard holds. -/
structure CellModel.Follows (m : CellModel) (vi : ValueIterator) (Proper : Int → Nat → Prop)
    (guard : (Pos → Nat) → Pos → Prop) : Prop where
  models : m.Models vi Proper
  store : ∀ V s, vi.world.evaluable s = true → guard V s →
    (vi.world.backup vi.world.clampedCost V s).1 ≠ V s →
    m.Fits vi s (vi.world.backup vi.world.clampedCost V s).1 ∧
      Proper (vi.padIdx s) (m.after (vi.padIdx s) (vi.world.backup vi.world.clampedCost V s).1)

section Follow
variable {vi : ValueIterator} {m : CellModel} {Proper : Int → Nat → Prop}
  {guard : (Pos → Nat) → Pos → Prop} {mem : Int → Nat} {V : Pos → Nat}

/-- On its memory the minimum over the actions is the clamped update of the field. -/
theorem StandsFor.thetaCost_peek (hm : m.Models vi Proper) (h : StandsFor vi m Proper mem V)
    {s : Pos} (hs : vi.dims.Contains s) :
    (m.thetaCost vi.buildPrecomp (vi.padCol s.ix s.iy) s.it.toNat).peek mem =
      (vi.world.backup vi.world.clampedCost V s).1 := by
  have hkeeps := thetaCost_keeps mem hm (P := fun i w => w = mem i) (Q := fun t v => v = V t)
    (fun i w hw => hw ▸ h.proper i)
    (by
      rintro t ht _ w rfl
      exact h.value t ht) hs
  obtain ⟨r, hr, hval⟩ := hkeeps.peek (fun _ => rfl) (thetaCost_readOnly _ _ _)
  rw [← hval, hr.eq fun t _ v hv => hv]

theorem StandsFor.evalTheta (hm : m.Models vi Proper) (h : StandsFor vi m Proper mem V)
    {c : Nat × Nat} (hc : InMap vi c) {it : Nat} (hit : it < vi.dims.nt) :
    (m.evalTheta vi.buildPrecomp (vi.padCol c.1 c.2) it).exec mem =
      let s := thetaPos c it
      let v := (vi.world.backup vi.world.clampedCost V s).1
      if v ≠ V s then (some v, Function.update mem (vi.padIdx s) (m.after (vi.padIdx s) v))
      else (none, mem) := by
  have hs := thetaPos_contains hc hit
  have hcost : (m.thetaCost vi.buildPrecomp (vi.padCol c.1 c.2) it).exec mem =
      ((vi.world.backup vi.world.clampedCost V (thetaPos c it)).1, mem) := by
    rw [(thetaCost_readOnly _ _ _).exec]
    exact congrArg (·, mem) (h.thetaCost_peek hm hs)
  have hidx : vi.padCol c.1 c.2 + (it : Int) = vi.padIdx (thetaPos c it) := rfl
  rw [CellModel.evalTheta, Prog.exec_load, Prog.exec_bind, hcost, hidx, h.value _ hs]
  simp only
  split
  · rfl
  · rfl

/-- A stored move keeps the words standing for the field. -/
theorem StandsFor.update (hf : m.Follows vi Proper guard) (h : StandsFor vi m Proper mem V)
    {s : Pos} (hev : vi.world.evaluable s = true) (hg : guard V s)
    (hne : (vi.world.backup vi.world.clampedCost V s).1 ≠ V s) :
    StandsFor vi m Proper (Function.update mem (vi.padIdx s)
      (m.after (vi.padIdx s) (vi.world.backup vi.world.clampedCost V s).1))
      (Function.update V s (vi.world.backup vi.world.clampedCost V s).1) := by
  obtain ⟨hfits, hproper⟩ := hf.store V s hev hg hne
  refine ⟨?_, ?_⟩
  · intro i
    by_cases hi : i = vi.padIdx s
    · subst hi
      rwa [Function.update_self]
    · rw [Function.update_of_ne hi]
      exact h.proper i
  · intro p hp
    by_cases hps : p = s
    · subst hps
      rw [Function.update_self, Function.update_self]
      exact hfits
    · have hidx : vi.padIdx p ≠ vi.padIdx s := fun heq => hps (padIdx_injective
        (onPad_of_contains hp) (onPad_of_contains (evaluable_iff.mp hev).1) heq)
      rw [Function.update_of_ne hps, Function.update_of_ne hidx]
      exact h.value p hp

/-- Step lemma: a cell makes the moves of the sweep. -/
theorem StandsFor.evalThetas (hf : m.Follows vi Proper guard) {c : Nat × Nat} (hc : InMap vi c)
    (its : List Nat) : (∀ it ∈ its, it < vi.dims.nt) → ∀ {mem : Int → Nat} {V : Pos → Nat},
      StandsFor vi m Proper mem V → Along guard V (cellWrites c (sweepCell vi c its V).1) →
      ∃ mem', (m.evalThetas vi.buildPrecomp (vi.padCol c.1 c.2) its).exec mem =
          ((sweepCell vi c its V).1, mem') ∧ StandsFor vi m Proper mem' (sweepCell vi c its V).2 := by
  induction its with
  | nil =>
    intro _ mem V h _
    exact ⟨mem, rfl, h⟩
  | cons it its ih =>
    intro hlt mem V h halong
    have hit := hlt it List.mem_cons_self
    have hs := thetaPos_contains hc hit
    have hrest : ∀ jt ∈ its, jt < vi.dims.nt := fun jt hj => hlt jt (List.mem_cons_of_mem _ hj)
    have hskip : m.skip (vi.padCol c.1 c.2 + (it : Int)) = !vi.world.evaluable (thetaPos c it) :=
      hf.models.skip_eq _ hs
    rw [CellModel.evalThetas, hskip]
    rw [sweepCell] at halong ⊢
    simp only at halong ⊢
    cases hev : vi.world.evaluable (thetaPos c it) with
    | false =>
      simp only [hev, Bool.false_eq_true, false_and, if_false] at halong ⊢
      exact ih hrest h halong
    | true =>
      rw [if_neg (by decide), Prog.exec_bind, h.evalTheta hf.models hc hit]
      simp only [hev, true_and] at halong ⊢
      by_cases hne : (vi.world.backup vi.world.clampedCost V (thetaPos c it)).1 ≠
          V (thetaPos c it)
      · rw [if_pos hne] at halong ⊢
        rw [if_pos hne]
        obtain ⟨mem', hexec, hstands⟩ := ih hrest (h.update hf hev halong.1 hne) halong.2
        refine ⟨mem', ?_, hstands⟩
        rw [Prog.exec_bind, hexec]
        rfl
      · rw [if_neg hne] at halong ⊢
        rw [if_neg hne]
        obtain ⟨mem', hexec, hstands⟩ := ih hrest h halong
        refine ⟨mem', ?_, hstands⟩
        rw [Prog.exec_bind, hexec]
        rfl

/-- Run lemma: so does a round of one worker. -/
theorem StandsFor.execAll (hf : m.Follows vi Proper guard) {all : List (Nat × Nat)}
    (cs : List (Nat × Nat)) : (∀ c ∈ cs, InMap vi c) → ∀ {mem : Int → Nat} {V : Pos → Nat},
      StandsFor vi m Proper mem V → Along guard V (writesOf (sweepCells vi cs V).1) →
      ∃ mem', (m.round vi all fun _ => List.range vi.dims.nt).execAll cs mem =
          ((sweepCells vi cs V).1, mem') ∧ StandsFor vi m Proper mem' (sweepCells vi cs V).2 := by
  induction cs with
  | nil =>
    intro _ mem V h _
    exact ⟨mem, rfl, h⟩
  | cons c cs ih =>
    intro hin mem V h halong
    rw [sweepCells] at halong ⊢
    simp only at halong ⊢
    rw [writesOf_cons, along_append, ← sweepCell_replay] at halong
    obtain ⟨mem₁, hexec, hstands⟩ := h.evalThetas hf (hin c List.mem_cons_self) _
      (fun it hit => List.mem_range.mp hit) halong.1
    obtain ⟨mem', hrest, hstands'⟩ := ih (fun d hd => hin d (List.mem_cons_of_mem _ hd)) hstands
      halong.2
    refine ⟨mem', ?_, hstands'⟩
    have htask : ((m.round vi all fun _ => List.range vi.dims.nt).task c).exec mem =
        ((sweepCell vi c (List.range vi.dims.nt) V).1, mem₁) := hexec
    rw [Round.execAll, htask]
    simp only
    rw [hrest]

end Follow

/-! ## Two layouts side by side -/

section Policy
variable {vi : ValueIterator} {m m' : CellModel} {Proper Proper' : Int → Nat → Prop}
  {mem mem' : Int → Nat} {V : Pos → Nat}

/-- The policy pass computes the first minimising action of the field. -/
theorem StandsFor.finalPolicy (hm : m.Models vi Proper) (h : StandsFor vi m Proper mem V)
    {skip : Int → Bool} {p : Pos} (hp : vi.dims.Contains p)
    (hskip : vi.world.evaluable p = true → skip (vi.padIdx p) = true →
      (vi.world.backup vi.world.clampedCost V p).2 = none)
    (hrest : vi.world.evaluable p = false → skip (vi.padIdx p) = true) :
    vi.finalPolicy m skip mem p =
      if vi.world.evaluable p then (vi.world.backup vi.world.clampedCost V p).2 else none := by
  rw [ValueIterator.finalPolicy]
  cases hev : vi.world.evaluable p with
  | false => rw [if_pos (hrest hev), if_neg (by decide)]
  | true =>
    rw [if_pos rfl]
    split
    · next hsk => exact (hskip hev hsk).symm
    · rw [argmin_eq hm h.proper (fun t ht => (h.value t ht).symm) hp]

/-- Memories that stand for one field are written back alike. -/
theorem StandsFor.writeBack_eq (hm : m.Models vi Proper) (hm' : m'.Models vi Proper')
    (h : StandsFor vi m Proper mem V) (h' : StandsFor vi m' Proper' mem' V)
    {skip : Int → Bool} (hskip : ∀ p, vi.dims.Contains p →
      (vi.world.evaluable p = true → skip (vi.padIdx p) = true →
        (vi.world.backup vi.world.clampedCost V p).2 = none) ∧
      (vi.world.evaluable p = false → skip (vi.padIdx p) = true)) :
    vi.writeBack m mem (vi.finalPolicy m skip mem) =
      vi.writeBack m' mem' (vi.finalPolicy m' m'.skip mem') := by
  apply writeBack_ext
  intro p hp
  rw [(writeBack_get hp).1, (writeBack_get hp).1, (writeBack_get hp).2, (writeBack_get hp).2,
    field_of_contains hp, field_of_contains hp, h.value p hp, h'.value p hp,
    h.finalPolicy hm hp (hskip p hp).1 (hskip p hp).2, h'.finalPolicy hm' hp]
  · exact ⟨rfl, rfl⟩
  · intro hev hsk
    rw [hm'.skip_eq p hp, hev] at hsk
    cases hsk
  · intro hev
    rw [hm'.skip_eq p hp, hev]
    rfl

theorem StandsFor.materialize_eq (hm : m.Models vi Proper) (hm' : m'.Models vi Proper')
    (h : StandsFor vi m Proper mem V) (h' : StandsFor vi m' Proper' mem' V) :
    vi.materialize m mem = vi.materialize m' mem' := by
  apply h.writeBack_eq hm hm' h'
  intro p hp
  refine ⟨?_, ?_⟩
  · intro hev hsk
    rw [hm.skip_eq p hp, hev] at hsk
    cases hsk
  · intro hev
    rw [hm.skip_eq p hp, hev]
    rfl

end Policy

/-- One worker that always reads the current memory; `steps` says for how long. -/
def soloSchedule (steps : Nat → Nat) : Nat → List (Nat × Bool) :=
  fun k => List.replicate (steps k) (0, false)

/-- The sweep of `async_gs_engine`: every heading of every candidate. -/
abbrev fullSweep (vi : ValueIterator) (m : CellModel) : Sweep Unit :=
  ⟨m, fun _ _ => List.range vi.dims.nt, fun _ _ => ()⟩

section Loop
variable {vi : ValueIterator} {m m' : CellModel} {Proper Proper' : Int → Nat → Prop}
  {guard guard' : (Pos → Nat) → Pos → Prop} {V₀ : Pos → Nat} {steps steps' : Nat → Nat}

/-- A round of one worker in terms of the sweep. -/
theorem gsRound_solo (hf : m.Follows vi Proper guard) {cand : List (Nat × Nat)}
    (hin : ∀ c ∈ cand, InMap vi c) {st st' : GsState Unit} {changed : List CellMoves}
    {V : Pos → Nat} (h : StandsFor vi m Proper st.mem V)
    (halong : Along guard V (writesOf (sweepCells vi cand V).1))
    (hrd : gsRound vi (fullSweep vi m) 1 (soloSchedule steps) cand st = some (st', changed)) :
    changed = (sweepCells vi cand V).1.filter (fun e => !e.2.isEmpty) ∧
      StandsFor vi m Proper st'.mem (sweepCells vi cand V).2 ∧
      st' = ⟨st'.mem, (), st.iters + 1, st.updates + (changed.map (·.2.length)).sum, st.pacer,
        st.writes ++ writesOf changed, st.seen⟩ := by
  obtain ⟨⟨fin, logs⟩, hrun, heq⟩ := Option.map_eq_some_iff.mp hrd
  obtain ⟨hfin, hlogs⟩ := Round.run_solo _ hrun
  obtain ⟨mem', hexec, hstands⟩ := @StandsFor.execAll _ _ _ _ hf cand cand hin _ _ h halong
  have hcands : ((fullSweep vi m).cells.round vi cand ((fullSweep vi m).headings st.own)).cands =
      cand := rfl
  rw [hcands] at hfin hlogs
  have hlog : logs.flatten = (sweepCells vi cand V).1 := by
    rw [hlogs, List.flatten_singleton]
    exact congrArg Prod.fst hexec
  simp only [Prod.mk.injEq] at heq
  obtain ⟨rfl, rfl⟩ := heq
  rw [hlog]
  refine ⟨rfl, ?_, rfl⟩
  have hmem : fin = mem' := hfin.trans (congrArg Prod.snd hexec)
  rw [hmem]
  exact hstands

/-- The writes of a loop extend those it started with. -/
theorem gsLoop_writes {S : Type} {sw : Sweep S} {nthreads : Nat} {sched : Nat → List (Nat × Bool)}
    {boundary : Nat → Nat → (Int → Nat) → SolveFlow} {fuel : Nat} {cand : List (Nat × Nat)}
    {st : GsState S} {r : GsRun}
    (h : gsLoop vi sw nthreads sched boundary fuel cand st = some r) : st.writes <+: r.writes := by
  have hround : ∀ cand (x x' : GsState S) changed, st.writes <+: x.writes →
      gsRound vi sw nthreads sched cand x = some (x', changed) → st.writes <+: x'.writes := by
    intro cand x x' changed hx hrd
    obtain ⟨_, _, _, _, hwrites, _⟩ := gsRound_eq hrd
    rw [hwrites]
    exact hx.trans (List.prefix_append _ _)
  obtain ⟨st', changed, hpre, hr, _⟩ := gsLoop_induct (fun _ x => st.writes <+: x.writes)
    (fun x _ => st.writes <+: x.writes) hround (fun _ _ _ hx _ => hx) (fun _ _ hx => hx) fuel
    (List.prefix_refl _) h
  rw [hr]
  exact hpre

theorem gsLoop_round_writes {S : Type} {sw : Sweep S} {nthreads : Nat}
    {sched : Nat → List (Nat × Bool)} {boundary : Nat → Nat → (Int → Nat) → SolveFlow} {fuel : Nat}
    {cand : List (Nat × Nat)} {st st' : GsState S} {r : GsRun} {changed : List CellMoves}
    (h : gsLoop vi sw nthreads sched boundary fuel cand st = some r)
    (hrd : gsRound vi sw nthreads sched cand st = some (st', changed)) : st'.writes <+: r.writes := by
  cases fuel with
  | zero =>
    rw [gsLoop, hrd] at h
    cases h
    exact List.prefix_refl _
  | succ fuel =>
    rw [gsLoop, hrd] at h
    simp only at h
    split at h
    · cases h
      exact List.prefix_refl _
    split at h
    · split at h
      · cases h
        exact List.prefix_refl _
      · cases h
        exact List.prefix_refl _
      · split at h
        · cases h
        · have hobserved := gsLoop_writes h
          exact hobserved
    · split at h
      · cases h
      · exact gsLoop_writes h

/-- The next candidates are candidates for every heading. -/
theorem nextCands_candidates {iters : Nat} {changed : List CellMoves} {cand : List (Nat × Nat)}
    (hwell : WellMoved vi changed) (h : nextCands vi iters changed = some cand) :
    Candidates vi cand fun _ => List.range vi.dims.nt := by
  obtain ⟨hnodup, hin, _⟩ := nextCands_spec hwell h
  exact ⟨hnodup, hin, fun _ _ => ⟨List.nodup_range, fun _ hit => List.mem_range.mp hit⟩⟩

theorem Along.of_prefix {guard : (Pos → Nat) → Pos → Prop} {ws ws' : List (Pos × Nat)}
    (h : Along guard V₀ ws') (hpre : ws <+: ws') : Along guard V₀ ws := by
  obtain ⟨rest, rfl⟩ := hpre
  exact ((along_append ws rest V₀).mp h).1

/-- Two states of the loop whose memories stand for the same field, reached by the same
writes. -/
structure Paired (vi : ValueIterator) (m m' : CellModel) (Proper Proper' : Int → Nat → Prop)
    (V₀ : Pos → Nat) (st st' : GsState Unit) : Prop where
  stands : StandsFor vi m Proper st.mem (replay V₀ st.writes)
  stands' : StandsFor vi m' Proper' st'.mem (replay V₀ st.writes)
  iters : st.iters = st'.iters
  updates : st.updates = st'.updates
  pacer : st.pacer = st'.pacer
  writes : st.writes = st'.writes
  seen : st.seen.map (vi.materialize m) = st'.seen.map (vi.materialize m')

/-- Two runs with one outcome, the same writes and fields shown, and memories that stand
for the same field. -/
structure SameRun (vi : ValueIterator) (m m' : CellModel) (Proper Proper' : Int → Nat → Prop)
    (V₀ : Pos → Nat) (r r' : GsRun) : Prop where
  outcome : r.outcome = r'.outcome
  stands : StandsFor vi m Proper r.mem (replay V₀ r.writes)
  stands' : StandsFor vi m' Proper' r'.mem (replay V₀ r.writes)
  writes : r.writes = r'.writes
  seen : r.seen.map (vi.materialize m) = r'.seen.map (vi.materialize m')

theorem Paired.finish {st st' : GsState Unit} (h : Paired vi m m' Proper Proper' V₀ st st')
    (outcome : SolveOutcome) :
    SameRun vi m m' Proper Proper' V₀ (st.finish outcome) (st'.finish outcome) :=
  ⟨rfl, h.stands, h.stands', h.writes, h.seen⟩

theorem Paired.observed (hm : m.Models vi Proper) (hm' : m'.Models vi Proper')
    {st st' : GsState Unit} (h : Paired vi m m' Proper Proper' V₀ st st') :
    Paired vi m m' Proper Proper' V₀ st.observed st'.observed := by
  refine ⟨h.stands, h.stands', h.iters, h.updates, ?_, h.writes, ?_⟩
  · simp only [GsState.observed, h.pacer, h.iters]
  · simp only [GsState.observed, List.map_append, List.map_cons, List.map_nil, h.seen,
      h.stands.materialize_eq hm hm' h.stands']

/-- Step lemma: a round that the guard admits keeps the pair together. -/
theorem Paired.round (hf : m.Follows vi Proper guard) (hf' : m'.Follows vi Proper' fun _ _ => True)
    {cand : List (Nat × Nat)} (hin : ∀ c ∈ cand, InMap vi c) {st st' st₁ st₁' : GsState Unit}
    {changed changed' : List CellMoves} (h : Paired vi m m' Proper Proper' V₀ st st')
    (hrd : gsRound vi (fullSweep vi m) 1 (soloSchedule steps) cand st = some (st₁, changed))
    (hrd' : gsRound vi (fullSweep vi m') 1 (soloSchedule steps') cand st' = some (st₁', changed'))
    (halong : Along guard V₀ st₁'.writes) :
    changed = changed' ∧ Paired vi m m' Proper Proper' V₀ st₁ st₁' := by
  obtain ⟨hchanged', hstands', heq'⟩ := gsRound_solo hf' hin h.stands' (along_true _ _) hrd'
  have hwrites' : writesOf changed' =
      writesOf (sweepCells vi cand (replay V₀ st.writes)).1 := by
    rw [hchanged', writesOf_filter]
  have hhere : Along guard (replay V₀ st.writes)
      (writesOf (sweepCells vi cand (replay V₀ st.writes)).1) := by
    have hall : Along guard V₀ (st'.writes ++ writesOf changed') := by
      rw [heq'] at halong
      exact halong
    rw [hwrites', ← h.writes, along_append] at hall
    exact hall.2
  obtain ⟨hchanged, hstands, heq⟩ := gsRound_solo hf hin h.stands hhere hrd
  have hsame : changed = changed' := hchanged.trans hchanged'.symm
  refine ⟨hsame, ?_⟩
  have hfield : (sweepCells vi cand (replay V₀ st.writes)).2 =
      replay V₀ (st.writes ++ writesOf changed) := by
    rw [replay_append, sweepCells_replay, hsame, hwrites']
  rw [hfield] at hstands hstands'
  rw [heq, heq']
  refine ⟨hstands, hstands', ?_, ?_, h.pacer, ?_, h.seen⟩
  · exact congrArg (· + 1) h.iters
  · simp only [hsame, h.updates]
  · simp only [hsame, h.writes]

/-- Run lemma: two layouts run side by side, the guard holding along the second run. -/
theorem gsLoop_paired (hf : m.Follows vi Proper guard)
    (hf' : m'.Follows vi Proper' fun _ _ => True) {obs : SolveObserver} (fuel : Nat) :
    ∀ {cand : List (Nat × Nat)} {st st' : GsState Unit} {r r' : GsRun},
      (Candidates vi cand fun _ => List.range vi.dims.nt) →
      Paired vi m m' Proper Proper' V₀ st st' →
      gsLoop vi (fullSweep vi m) 1 (soloSchedule steps) (fun iters updates mem =>
        obs.boundary iters updates (vi.materialize m mem)) fuel cand st = some r →
      gsLoop vi (fullSweep vi m') 1 (soloSchedule steps') (fun iters updates mem =>
        obs.boundary iters updates (vi.materialize m' mem)) fuel cand st' = some r' →
      Along guard V₀ r'.writes → SameRun vi m m' Proper Proper' V₀ r r' := by
  induction fuel with
  | zero =>
    intro cand st st' r r' hcd h hr hr' halong
    obtain ⟨⟨st₁, changed⟩, hrd, rfl⟩ := Option.map_eq_some_iff.mp hr
    obtain ⟨⟨st₁', changed'⟩, hrd', rfl⟩ := Option.map_eq_some_iff.mp hr'
    obtain ⟨rfl, hpair⟩ := h.round hf hf' hcd.inMap hrd hrd' halong
    have hfinish := hpair.finish (.running st₁.iters st₁.updates changed.isEmpty)
    simp only [← hpair.iters, ← hpair.updates]
    exact hfinish
  | succ fuel ih =>
    intro cand st st' r r' hcd h hr hr' halong
    have hwhole := hr'
    unfold gsLoop at hr hr'
    cases hrd : gsRound vi (fullSweep vi m) 1 (soloSchedule steps) cand st with
    | none =>
      rw [hrd] at hr
      cases hr
    | some p =>
      cases hrd' : gsRound vi (fullSweep vi m') 1 (soloSchedule steps') cand st' with
      | none =>
        rw [hrd'] at hr'
        cases hr'
      | some p' =>
        obtain ⟨st₁, changed⟩ := p
        obtain ⟨st₁', changed'⟩ := p'
        rw [hrd] at hr
        rw [hrd'] at hr'
        obtain ⟨rfl, hpair⟩ := h.round hf hf' hcd.inMap hrd hrd'
          (halong.of_prefix (gsLoop_round_writes hwhole hrd'))
        have hwell : WellMoved vi changed := by
          obtain ⟨logs, hmach, hch, _⟩ := gsRound_eq hrd
          rw [hch]
          exact wellMoved_of_run hf.models hcd (by decide) hmach
        have hseen := hpair.observed hf.models hf'.models
        have hshown : vi.materialize m' st₁'.mem = vi.materialize m st₁.mem :=
          (hpair.stands.materialize_eq hf.models hf'.models hpair.stands').symm
        simp only [← hpair.iters, ← hpair.updates, ← hpair.pacer, hshown] at hr'
        simp only at hr
        split at hr
        · next hempty =>
          rw [if_pos hempty] at hr'
          cases hr
          cases hr'
          exact hpair.finish _
        · next hempty =>
          rw [if_neg hempty] at hr'
          split at hr
          · next hdue =>
            rw [if_pos hdue] at hr'
            cases hflow : obs.boundary st₁.iters st₁.updates (vi.materialize m st₁.mem) with
            | stop =>
              rw [hflow] at hr hr'
              cases hr
              cases hr'
              exact hseen.finish _
            | cancel =>
              rw [hflow] at hr hr'
              cases hr
              cases hr'
              exact hseen.finish _
            | proceed =>
              rw [hflow] at hr hr'
              simp only at hr hr'
              split at hr
              · cases hr
              · next hn =>
                rw [hn] at hr'
                exact ih (nextCands_candidates hwell hn) hseen hr hr' halong
          · next hdue =>
            rw [if_neg hdue] at hr'
            split at hr
            · cases hr
            · next hn =>
              rw [hn] at hr'
              exact ih (nextCands_candidates hwell hn) hpair hr hr' halong

end Loop

end ValueIteration
