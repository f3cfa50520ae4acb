import ValueIteration.Solvers.Engine

/-!
# What one parallel round does to the field

`RoundSpec` is all that the loops need to know of a round, whether workers wrote
while others read or a still memory was updated afterwards.
-/

set_option autoImplicit false

namespace ValueIteration

open Async ValueIterator CellModel

/-- A state listed among the moves of a round. -/
def Moved (changed : List CellMoves) (s : Pos) : Prop :=
  ∃ c moves, (c, moves) ∈ changed ∧ ∃ e ∈ moves, s = thetaPos c e.1

/-- Distinct cells of the map, and headings of the table. -/
structure WellMoved (vi : ValueIterator) (changed : List CellMoves) : Prop where
  nodup : (changed.map (·.1)).Nodup
  inMap : ∀ c moves, (c, moves) ∈ changed → InMap vi c
  headings : ∀ c moves, (c, moves) ∈ changed → ∀ e ∈ moves, e.1 < vi.dims.nt

structure RoundSpec (m : CellModel) (vi : ValueIterator) (E : Set Pos) (mem fin : Int → Nat)
    (changed : List CellMoves) : Prop where
  mixed : vi.world.Mixed E (m.field vi mem) (m.field vi fin)
  moved : ∀ s, vi.dims.Contains s → (m.field vi fin s ≠ m.field vi mem s ↔ Moved changed s)
  written : ∀ w ∈ writesOf changed, m.field vi fin w.1 = w.2
  between : ∀ lo hi : Pos → Nat,
    (∀ t, vi.dims.Contains t → (vi.stateAt t).free = true →
      vi.world.InRange t (m.field vi mem t) ∧ vi.world.InRange t (m.field vi fin t)) →
    (∀ s, vi.world.evaluable s = true → lo s ≤ (vi.world.backup vi.world.clampedExactCost lo s).1) →
    (∀ s, vi.world.evaluable s = true → (vi.world.backup vi.world.clampedExactCost hi s).1 ≤ hi s) →
    (∀ p, vi.dims.Contains p → lo p ≤ m.field vi mem p ∧ m.field vi mem p ≤ hi p) →
      ∀ p, vi.dims.Contains p → lo p ≤ m.field vi fin p ∧ m.field vi fin p ≤ hi p

theorem mem_writesOf {changed : List CellMoves} {w : Pos × Nat} :
    w ∈ writesOf changed ↔ ∃ c moves, (c, moves) ∈ changed ∧ ∃ e ∈ moves, w = (thetaPos c e.1, e.2) := by
  rw [writesOf, List.mem_flatMap]
  constructor
  · rintro ⟨⟨c, moves⟩, hc, hw⟩
    obtain ⟨e, he, rfl⟩ := List.mem_map.mp hw
    exact ⟨c, moves, hc, e, he, rfl⟩
  · rintro ⟨c, moves, hc, e, he, rfl⟩
    exact ⟨(c, moves), hc, List.mem_map_of_mem he⟩

/-- Dropping the cells without moves loses no move. -/
theorem mem_movers {log : List CellMoves} {c : Nat × Nat} {moves : List (Nat × Nat)} :
    (c, moves) ∈ log.filter (fun e => !e.2.isEmpty) ↔ (c, moves) ∈ log ∧ moves ≠ [] := by
  simp [List.mem_filter]

theorem moved_movers {log : List CellMoves} {s : Pos} :
    Moved (log.filter fun e => !e.2.isEmpty) s ↔ Moved log s := by
  constructor
  · rintro ⟨c, moves, hc, h⟩
    exact ⟨c, moves, (mem_movers.mp hc).1, h⟩
  · rintro ⟨c, moves, hc, e, he, h⟩
    exact ⟨c, moves, mem_movers.mpr ⟨hc, List.ne_nil_of_mem he⟩, e, he, h⟩

theorem wellMoved_nil {vi : ValueIterator} : WellMoved vi [] where
  nodup := List.nodup_nil
  inMap c moves h := by cases h
  headings c moves h := by cases h

theorem WellMoved.contains {vi : ValueIterator} {changed : List CellMoves}
    (h : WellMoved vi changed) {s : Pos} (hs : Moved changed s) : vi.dims.Contains s := by
  obtain ⟨c, moves, hc, e, he, rfl⟩ := hs
  exact thetaPos_contains (h.inMap c moves hc) (h.headings c moves hc e he)

section Engine
variable {m : CellModel} {vi : ValueIterator} {Proper : Int → Nat → Prop}
  {cands : List (Nat × Nat)} {its : Nat × Nat → List Nat} {mem fin : Int → Nat}
  {logs : List (List CellMoves)} {nthreads : Nat} {sched : List (Nat × Bool)}

/-- Writes that fit as pairs are writes that fit. -/
theorem allFit_of_writes (h : ∀ w ∈ writesOf (logs.flatten.filter fun e => !e.2.isEmpty),
    m.Fits vi w.1 w.2) : m.AllFit vi logs.flatten := by
  intro c moves hc e he
  have hmem := mem_movers.mpr ⟨hc, List.ne_nil_of_mem he⟩
  exact h _ (mem_writesOf.mpr ⟨c, moves, hmem, e, he, rfl⟩)

theorem writes_of_run (hm : m.Models vi Proper) (hcand : Candidates vi cands its)
    (hn : 0 < nthreads)
    (hrun : (m.round vi cands its).run nthreads mem sched = some (fin, logs)) :
    ∀ w ∈ writesOf (logs.flatten.filter fun e => !e.2.isEmpty),
      vi.world.evaluable w.1 = true ∧ CostValue w.2 := by
  intro w hw
  obtain ⟨c, moves, hc, e, he, rfl⟩ := mem_writesOf.mp hw
  obtain ⟨hspec, _, _⟩ := round_moves hm hcand hn hrun
  obtain ⟨_, hmoves⟩ := hspec c moves (mem_movers.mp hc).1
  obtain ⟨_, hev, hcost, _⟩ := hmoves.moved e he
  exact ⟨hev, hcost⟩

theorem wellMoved_of_run (hm : m.Models vi Proper) (hcand : Candidates vi cands its)
    (hn : 0 < nthreads)
    (hrun : (m.round vi cands its).run nthreads mem sched = some (fin, logs)) :
    WellMoved vi (logs.flatten.filter fun e => !e.2.isEmpty) := by
  have hdone := Round.run_done hcand.lawful hn hrun
  obtain ⟨hspec, _, _⟩ := round_moves hm hcand hn hrun
  refine ⟨?_, ?_, ?_⟩
  · have hnodup := hdone.once.nodup_iff.mpr hcand.nodup
    exact hnodup.sublist (List.filter_sublist.map _)
  · intro c moves hc
    exact hcand.inMap c (hspec c moves (mem_movers.mp hc).1).1
  · intro c moves hc e he
    obtain ⟨hcc, hmoves⟩ := hspec c moves (mem_movers.mp hc).1
    exact (hcand.headings c hcc).2 _ (hmoves.moved e he).1

/-- A finished compute phase, all of whose words were proper and whose writes fit. -/
theorem roundSpec_of_run (hm : m.Models vi Proper) (hcand : Candidates vi cands its)
    (hn : 0 < nthreads)
    (hrun : (m.round vi cands its).run nthreads mem sched = some (fin, logs))
    (hstart : ∀ i, Proper i (mem i)) (hfin : ∀ i, Proper i (fin i))
    (hfits : m.AllFit vi logs.flatten) :
    RoundSpec m vi (activeSet cands its) mem fin (logs.flatten.filter fun e => !e.2.isEmpty) := by
  obtain ⟨hmixed, hmoved⟩ := round_mixed hm hstart hfin hcand hn hrun hfits
  refine ⟨hmixed, ?_, ?_, ?_⟩
  · intro s hs
    rw [moved_movers]
    exact hmoved s hs
  · intro w hw
    obtain ⟨c, moves, hc, e, he, rfl⟩ := mem_writesOf.mp hw
    obtain ⟨hspec, _, _⟩ := round_moves hm hcand hn hrun
    have hlog := (mem_movers.mp hc).1
    obtain ⟨hcc, hmoves⟩ := hspec c moves hlog
    obtain ⟨hit, _, _, hst, _⟩ := hmoves.moved e he
    have hcon := thetaPos_contains (hcand.inMap c hcc) ((hcand.headings c hcc).2 _ hit)
    rw [field_of_contains hcon, hst]
    exact hfits c moves hlog e he
  · intro lo hi hrange hlo hhi hin
    exact round_between hm hstart hfin hcand hn hrun hfits world_normed hrange hlo hhi hin

end Engine

section Jacobi
variable {m : CellModel} {vi : ValueIterator} {Proper : Int → Nat → Prop} {mem : Int → Nat}

theorem mem_jacobiCell {c : Nat × Nat} {e : Nat × Nat} : e ∈ vi.jacobiCell m mem c ↔
    e.1 < vi.dims.nt ∧ m.skip (vi.padIdx (thetaPos c e.1)) = false ∧
      e.2 = (m.thetaCost vi.buildPrecomp (vi.padCol c.1 c.2) e.1).peek mem ∧
      e.2 ≠ m.before (vi.padIdx (thetaPos c e.1)) (mem (vi.padIdx (thetaPos c e.1))) := by
  obtain ⟨it, v⟩ := e
  have hidx : vi.padCol c.1 c.2 + (it : Int) = vi.padIdx (thetaPos c it) := rfl
  simp only [jacobiCell, List.mem_filterMap, List.mem_range]
  constructor
  · rintro ⟨jt, hlt, h⟩
    split at h
    · cases h
    · next hskip =>
      split at h
      · next hne =>
        simp only [Option.some.injEq, Prod.mk.injEq] at h
        obtain ⟨rfl, rfl⟩ := h
        exact ⟨hlt, by simpa [hidx] using hskip, rfl, hne⟩
      · cases h
  · rintro ⟨hlt, hskip, rfl, hne⟩
    refine ⟨it, hlt, ?_⟩
    rw [hidx, hskip]
    simp only [Bool.false_eq_true, if_false]
    exact if_pos hne

/-- Values written one after the other to distinct locations. -/
theorem foldl_update_spec {β : Type} (loc : β → Int) (val : β → Nat) (ws : List β) :
    ∀ mem : Int → Nat, (ws.map loc).Nodup →
      (∀ w ∈ ws, ws.foldl (fun mem w => Function.update mem (loc w) (val w)) mem (loc w) = val w) ∧
      ∀ i, (∀ w ∈ ws, i ≠ loc w) →
        ws.foldl (fun mem w => Function.update mem (loc w) (val w)) mem i = mem i := by
  induction ws with
  | nil =>
    intro mem _
    refine ⟨?_, fun _ _ => rfl⟩
    intro w hw
    cases hw
  | cons w ws ih =>
    intro mem hnodup
    rw [List.map_cons, List.nodup_cons] at hnodup
    obtain ⟨hset, hframe⟩ := ih (Function.update mem (loc w) (val w)) hnodup.2
    refine ⟨?_, ?_⟩
    · intro u hu
      rcases List.mem_cons.mp hu with rfl | hu
      · rw [List.foldl_cons, hframe]
        · exact Function.update_self _ _ _
        · intro x hx heq
          exact hnodup.1 (heq ▸ List.mem_map_of_mem hx)
      · exact hset u hu
    · intro i hi
      rw [List.foldl_cons, hframe i fun u hu => hi u (List.mem_cons_of_mem _ hu)]
      exact Function.update_of_ne (hi w List.mem_cons_self) _ _

theorem computeRound_flatten (nthreads : Nat) (cands : List (Nat × Nat)) :
    (vi.computeRound nthreads m mem cands).flatten =
      cands.map fun c => (c, vi.jacobiCell m mem c) := by
  rw [computeRound, ← List.map_flatten, flatten_chunks (Nat.lt_of_lt_of_le Nat.one_pos
    (Nat.le_max_right _ _))]

theorem nodup_writesOf {changed : List CellMoves} (h : (changed.map (·.1)).Nodup)
    (hmoves : ∀ e ∈ changed, (e.2.map (·.1)).Nodup) :
    ((writesOf changed).map (·.1)).Nodup := by
  simp only [writesOf, List.map_flatMap, List.map_map, Function.comp_def]
  refine List.nodup_flatMap.mpr ⟨?_, ?_⟩
  · intro e he
    have hinj := List.Nodup.map (fun a b hab => (thetaPos_injective hab).2) (hmoves e he)
      (f := thetaPos e.1)
    rwa [List.map_map] at hinj
  · refine (List.pairwise_map.mp h).imp ?_
    intro e e' hne p hp hp'
    obtain ⟨w, _, rfl⟩ := List.mem_map.mp hp
    obtain ⟨w', _, heq⟩ := List.mem_map.mp hp'
    exact hne (thetaPos_injective heq).1.symm

theorem nodup_jacobiCell (c : Nat × Nat) : ((vi.jacobiCell m mem c).map (·.1)).Nodup := by
  have hsub : ∀ its : List Nat, (((its.filterMap fun (it : Nat) =>
      let i := vi.padCol c.1 c.2 + it
      if m.skip i then none
      else
        let v := (m.thetaCost vi.buildPrecomp (vi.padCol c.1 c.2) it).peek mem
        if v ≠ m.before i (mem i) then some (it, v) else none)).map (·.1)).Sublist its := by
    intro its
    induction its with
    | nil => exact List.Sublist.refl _
    | cons it its ih =>
      rw [List.filterMap_cons]
      split
      · exact ih.cons _
      · next b hb =>
        simp only at hb
        split at hb
        · cases hb
        · split at hb
          · cases hb
            exact ih.cons_cons _
          · cases hb
  exact (hsub (List.range vi.dims.nt)).nodup List.nodup_range

/-- What a candidate computes is the clamped update of the still field. -/
theorem jacobi_backs (hm : m.Models vi Proper) (hmem : ∀ i, Proper i (mem i)) {c : Nat × Nat}
    (hc : InMap vi c) {it : Nat} (hit : it < vi.dims.nt) :
    ∃ r, vi.world.Backs (fun t v => v = m.field vi mem t) (thetaPos c it) r ∧
      r.1 = (m.thetaCost vi.buildPrecomp (vi.padCol c.1 c.2) it).peek mem := by
  have hkeeps := thetaCost_backs mem hm (P := fun i h => h = mem i)
    (fun i h hh => hh ▸ hmem i) hc hit
  obtain ⟨r, hr, hval⟩ := hkeeps.peek (fun _ => rfl) (thetaCost_readOnly _ _ _)
  refine ⟨r, hr.mono ?_, hval⟩
  rintro t ht v ⟨h, rfl, rfl⟩
  exact (field_of_contains (reads_inBox (thetaPos_contains hc hit) ht).1).symm

theorem writes_of_jacobi (hm : m.Models vi Proper) {cands : List (Nat × Nat)}
    (hin : ∀ c ∈ cands, InMap vi c) {changed : List CellMoves}
    (hchanged : changed = (cands.map fun c => (c, vi.jacobiCell m mem c)).filter
      fun e => !e.2.isEmpty) :
    ∀ w ∈ writesOf changed, vi.world.evaluable w.1 = true ∧ CostValue w.2 := by
  intro w hw
  obtain ⟨c, moves, hc, e, he, rfl⟩ := mem_writesOf.mp hw
  rw [hchanged, mem_movers, List.mem_map] at hc
  obtain ⟨⟨d, hd, heq⟩, _⟩ := hc
  cases heq
  obtain ⟨hit, hskip, hval, _⟩ := mem_jacobiCell.mp he
  rw [hm.skip_eq _ (thetaPos_contains (hin c hd) hit), Bool.not_eq_false'] at hskip
  refine ⟨hskip, ?_⟩
  rw [hval]
  have hvalue : (m.thetaCost vi.buildPrecomp (vi.padCol c.1 c.2) e.1).Keeps mem
      (fun _ _ => True) CostValue := thetaCost_value _ _ _
  exact hvalue.peek (fun _ => trivial) (thetaCost_readOnly _ _ _)

/-- A round computed on a still memory and applied afterwards. -/
theorem roundSpec_of_jacobi (hm : m.Models vi Proper) {cands : List (Nat × Nat)}
    (hnodup : cands.Nodup) (hin : ∀ c ∈ cands, InMap vi c) (hmem : ∀ i, Proper i (mem i))
    {changed : List CellMoves}
    (hchanged : changed = (cands.map fun c => (c, vi.jacobiCell m mem c)).filter
      fun e => !e.2.isEmpty)
    (hfits : ∀ w ∈ writesOf changed, m.Fits vi w.1 w.2) {fin : Int → Nat}
    (hfin : fin = (writesOf changed).foldl (fun mem w =>
      Function.update mem (vi.padIdx w.1) (m.after (vi.padIdx w.1) w.2)) mem) :
    WellMoved vi changed ∧
      RoundSpec m vi (activeSet cands fun _ => List.range vi.dims.nt) mem fin changed := by
  have hmemc : ∀ c moves, (c, moves) ∈ changed ↔
      c ∈ cands ∧ moves = vi.jacobiCell m mem c ∧ moves ≠ [] := by
    intro c moves
    rw [hchanged, mem_movers, List.mem_map]
    constructor
    · rintro ⟨⟨d, hd, heq⟩, hne⟩
      cases heq
      exact ⟨hd, rfl, hne⟩
    · rintro ⟨hc, rfl, hne⟩
      exact ⟨⟨c, hc, rfl⟩, hne⟩
  have hwell : WellMoved vi changed := by
    refine ⟨?_, ?_, ?_⟩
    · rw [hchanged]
      refine (List.Nodup.sublist (List.filter_sublist.map _) ?_ : _)
      simpa [List.map_map, Function.comp_def] using hnodup
    · intro c moves hc
      exact hin c ((hmemc c moves).mp hc).1
    · intro c moves hc e he
      rw [((hmemc c moves).mp hc).2.1] at he
      exact (mem_jacobiCell.mp he).1
  -- a write is a candidate's move, and the moves of a cell are determined by it
  have hwrite : ∀ w, w ∈ writesOf changed ↔ ∃ c ∈ cands, ∃ e ∈ vi.jacobiCell m mem c,
      w = (thetaPos c e.1, e.2) := by
    intro w
    rw [mem_writesOf]
    constructor
    · rintro ⟨c, moves, hc, e, he, rfl⟩
      obtain ⟨hcc, rfl, _⟩ := (hmemc c moves).mp hc
      exact ⟨c, hcc, e, he, rfl⟩
    · rintro ⟨c, hc, e, he, rfl⟩
      exact ⟨c, _, (hmemc c _).mpr ⟨hc, rfl, List.ne_nil_of_mem he⟩, e, he, rfl⟩
  have hcon : ∀ w ∈ writesOf changed, vi.dims.Contains w.1 := by
    intro w hw
    obtain ⟨c, hc, e, he, rfl⟩ := (hwrite w).mp hw
    exact thetaPos_contains (hin c hc) (mem_jacobiCell.mp he).1
  have hmoves : ∀ e ∈ changed, (e.2.map (·.1)).Nodup := by
    rintro ⟨c, moves⟩ hc
    rw [((hmemc c moves).mp hc).2.1]
    exact nodup_jacobiCell c
  have hlocs : ((writesOf changed).map fun w => vi.padIdx w.1).Nodup := by
    have hpos := nodup_writesOf hwell.nodup hmoves
    rw [List.Nodup, List.pairwise_map] at hpos ⊢
    refine List.Pairwise.imp_of_mem ?_ hpos
    intro w w' hw hw' hne heq
    exact hne (padIdx_injective (onPad_of_contains (hcon w hw)) (onPad_of_contains (hcon w' hw'))
      heq)
  obtain ⟨hset, hframe⟩ := foldl_update_spec (fun w : Pos × Nat => vi.padIdx w.1)
    (fun w => m.after (vi.padIdx w.1) w.2) (writesOf changed) mem hlocs
  rw [← hfin] at hset hframe
  have hwritten : ∀ w ∈ writesOf changed, m.field vi fin w.1 = w.2 := by
    intro w hw
    rw [field_of_contains (hcon w hw), hset w hw]
    exact hfits w hw
  have hstill : ∀ p, (∀ w ∈ writesOf changed, p ≠ w.1) → m.field vi fin p = m.field vi mem p := by
    intro p hnone
    by_cases hp : vi.dims.Contains p
    · rw [field_of_contains hp, field_of_contains hp, hframe]
      intro w hw heq
      exact hnone w hw (padIdx_injective (onPad_of_contains hp) (onPad_of_contains (hcon w hw)) heq)
    · rw [field, field, if_neg hp, if_neg hp]
  have hvalue : ∀ c ∈ cands, ∀ it, it < vi.dims.nt → vi.world.evaluable (thetaPos c it) = true →
      m.field vi fin (thetaPos c it) =
        (m.thetaCost vi.buildPrecomp (vi.padCol c.1 c.2) it).peek mem := by
    intro c hc it hit hev
    have hp := thetaPos_contains (hin c hc) hit
    by_cases hne : (m.thetaCost vi.buildPrecomp (vi.padCol c.1 c.2) it).peek mem =
        m.before (vi.padIdx (thetaPos c it)) (mem (vi.padIdx (thetaPos c it)))
    · rw [hne, ← field_of_contains hp]
      apply hstill
      intro w hw heq
      obtain ⟨d, _, e, he, rfl⟩ := (hwrite w).mp hw
      obtain ⟨rfl, rfl⟩ := thetaPos_injective heq
      obtain ⟨_, _, hv, hvne⟩ := mem_jacobiCell.mp he
      exact hvne (hv.trans hne)
    · refine hwritten (thetaPos c it, _) ((hwrite _).mpr ⟨c, hc, (it, _), mem_jacobiCell.mpr
        ⟨hit, ?_, rfl, hne⟩, rfl⟩)
      rw [hm.skip_eq _ hp, hev]
      rfl
  have hmoved : ∀ s, Moved changed s ↔ ∃ w ∈ writesOf changed, s = w.1 := by
    intro s
    constructor
    · rintro ⟨c, moves, hc, e, he, rfl⟩
      exact ⟨_, mem_writesOf.mpr ⟨c, moves, hc, e, he, rfl⟩, rfl⟩
    · rintro ⟨w, hw, rfl⟩
      obtain ⟨c, moves, hc, e, he, rfl⟩ := mem_writesOf.mp hw
      exact ⟨c, moves, hc, e, he, rfl⟩
  have hactive : ∀ w ∈ writesOf changed, vi.world.evaluable w.1 = true ∧
      w.1 ∈ activeSet cands fun _ => List.range vi.dims.nt := by
    intro w hw
    obtain ⟨c, hc, e, he, rfl⟩ := (hwrite w).mp hw
    obtain ⟨hit, hskip, _⟩ := mem_jacobiCell.mp he
    rw [hm.skip_eq _ (hcon _ hw), Bool.not_eq_false'] at hskip
    exact ⟨hskip, c, hc, e.1, List.mem_range.mpr hit, rfl⟩
  have hbacks : ∀ s, vi.world.evaluable s = true →
      s ∈ activeSet cands (fun _ => List.range vi.dims.nt) →
        ∃ r, vi.world.Backs (fun t v => v = m.field vi mem t) s r ∧ r.1 = m.field vi fin s := by
    rintro s hev ⟨c, hc, it, hit, rfl⟩
    rw [List.mem_range] at hit
    rw [hvalue c hc it hit hev]
    exact jacobi_backs hm hmem (hin c hc) hit
  have hframe' : ∀ s, ¬ (vi.world.evaluable s = true ∧
      s ∈ activeSet cands fun _ => List.range vi.dims.nt) → m.field vi fin s = m.field vi mem s := by
    intro s hs
    apply hstill
    rintro w hw rfl
    exact hs (hactive w hw)
  refine ⟨hwell, ⟨hframe', ?_⟩, ?_, ?_, ?_⟩
  · intro s hev hE
    obtain ⟨r, hr, hval⟩ := hbacks s hev hE
    exact ⟨r, hr.mono fun _ _ _ hv => Or.inl hv, hval⟩
  · intro s _
    rw [hmoved]
    constructor
    · intro hne
      by_contra hnone
      refine hne (hstill s ?_)
      intro w hw heq
      exact hnone ⟨w, hw, heq⟩
    · rintro ⟨w, hw, rfl⟩
      rw [hwritten w hw, field_of_contains (hcon w hw)]
      obtain ⟨c, hc, e, he, rfl⟩ := (hwrite w).mp hw
      exact (mem_jacobiCell.mp he).2.2.2
  · exact hwritten
  · intro lo hi hrange hlo hhi hbound p hp
    by_cases hact : vi.world.evaluable p = true ∧
        p ∈ activeSet cands fun _ => List.range vi.dims.nt
    · obtain ⟨r, hr, hval⟩ := hbacks p hact.1 hact.2
      have hb := hr.bounds world_normed lo hi (by
        rintro t ht v rfl
        have hct := (reads_inBox hp ht).1
        obtain ⟨_, _, _, _, _, hfree, _⟩ := reads_elim ht
        exact ⟨(hbound t hct).1, (hbound t hct).2, (hrange t hct hfree).1⟩)
      rw [← hval]
      exact ⟨(hlo p hact.1).trans hb.1, hb.2.trans (hhi p hact.1)⟩
    · rw [hframe' p hact]
      exact hbound p hp

end Jacobi

end ValueIteration
