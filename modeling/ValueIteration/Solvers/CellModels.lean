import ValueIteration.Solvers.CellRound

/-!
# The two layouts as cell models

The padded layout stands for the map whatever its words are. The fused layout does
as long as no word of a free cell decodes to `MAX_COST` other than the sentinel
itself. A round keeps that: a reached state of a supported field keeps an action all
of whose outcomes stay reached, so its value never rises to `MAX_COST` again.
-/

set_option autoImplicit false

namespace ValueIteration

open Async ValueIterator CellModel

variable {vi : ValueIterator}

theorem wrappingAdd_injective {a b c : Nat} (ha : a < word) (hb : b < word)
    (h : wrappingAdd a c = wrappingAdd b c) : a = b := by
  rw [← wrappingSub_wrappingAdd ha c, h, wrappingSub_wrappingAdd hb]

theorem wrappingSub_add_mod (h pen : Nat) : h % word = (wrappingSub h pen + pen) % word := by
  unfold wrappingSub word
  omega

theorem pen_lt_word (p : Pos) : vi.world.pen p < word := wrappingAdd_lt _ _

/-- Rows of the table are normed, rows of headings off the map are empty. -/
theorem world_normed : vi.world.Normed := by
  intro s row hrow
  obtain ⟨a, ha, hlegal⟩ := List.mem_map.mp hrow
  unfold legalRow at hlegal
  split at hlegal
  · cases hlegal
    simp only [List.map_map, Function.comp_def]
    by_cases hmem : a.row s.it ∈ a.stateTransitions
    · exact ((vi.wellFormed a ha).2 _ hmem).2.le
    · have hnil : a.row s.it = [] := by
        by_contra hne
        apply hmem
        by_cases hlt : s.it.toNat < a.stateTransitions.length
        · simp [Action.row, List.getD_eq_getElem?_getD, hlt]
        · exact absurd (by simp [Action.row, List.getD_eq_getElem?_getD, hlt]) hne
      rw [hnil]
      exact Nat.zero_le _
  · cases hlegal

theorem actionRow_ne_nil {a : Action} (ha : a ∈ vi.actions) {s : Pos} (hs : vi.dims.Contains s) :
    a.row s.it ≠ [] := by
  intro hnil
  have hmem := List.mem_of_getElem? (row_mem ha hs)
  have hsum := ((vi.wellFormed a ha).2 _ hmem).2
  rw [hnil] at hsum
  exact absurd hsum (by decide)

theorem row_ne_nil {s : Pos} (hs : vi.dims.Contains s) {row : List (Pos × Nat)}
    (hrow : some row ∈ vi.world.choices s) : row ≠ [] := by
  obtain ⟨a, ha, hlegal⟩ := List.mem_map.mp hrow
  unfold legalRow at hlegal
  split at hlegal
  · cases hlegal
    exact fun hnil => actionRow_ne_nil ha hs (List.map_eq_nil_iff.mp hnil)
  · cases hlegal

/-- The words of the padded layout. -/
def Padded.words (m : Padded) : Int → Nat := fun i => (m.hot.getFlat i).1

section PaddedModel

theorem padded_free {p : Pos} (hp : OnPad vi p) : (Padded.build vi).free.getFlat (vi.padIdx p) =
    if vi.dims.Contains p then (vi.stateAt p).free else false :=
  padFill_getFlat _ _ hp

theorem padded_finals {p : Pos} (hp : OnPad vi p) :
    (Padded.build vi).finals.getFlat (vi.padIdx p) =
      if vi.dims.Contains p then (vi.stateAt p).finalState else false :=
  padFill_getFlat _ _ hp

theorem padded_hot {p : Pos} (hp : vi.dims.Contains p) :
    (Padded.build vi).hot.getFlat (vi.padIdx p) = (vi.costs p, vi.world.pen p) := by
  have h := padFill_getFlat (maxCost, 0) (fun s : State => (s.totalCost, s.pen))
    (onPad_of_contains hp)
  rw [if_pos hp] at h
  exact h

theorem Padded.models : (Padded.build vi).cells.Models vi fun _ _ => True where
  skip_eq := by
    intro p hp
    have hpad := onPad_of_contains hp
    simp only [Padded.cells, padded_free hpad, padded_finals hpad, if_pos hp, world,
      State.evaluable, decide_eq_true hp, Bool.true_and, Bool.not_and, Bool.not_not]
  hidden := by
    intro p hpad hnot
    left
    simp only [Padded.cells, padded_free hpad, Bool.not_eq_true']
    split
    · next hp => exact Bool.not_eq_true _ ▸ fun hfree => hnot ⟨hp, hfree⟩
    · rfl
  visible := by
    intro p hp hfree
    simp only [Padded.cells, padded_free (onPad_of_contains hp), if_pos hp, hfree, Bool.not_true]
  weigh_eq := by
    intro p hp _ h _
    simp only [Padded.cells, padded_hot hp]
    by_cases hmax : h = maxCost
    · left
      rw [hmax]
      exact ⟨if_pos (beq_self_eq_true _), rfl⟩
    · right
      refine ⟨_, if_neg (by simpa using hmax), hmax, ?_⟩
      rw [wrappingAdd, Nat.mod_mod]
  after_injective _ _ _ _ _ _ h := h

theorem Padded.fits (p : Pos) (v : Nat) : (Padded.build vi).cells.Fits vi p v := rfl

theorem Padded.field_words : (Padded.build vi).cells.field vi (Padded.build vi).words = vi.costs := by
  funext p
  unfold CellModel.field
  split
  · next hp => simp only [Padded.cells, Padded.words, padded_hot hp]
  · rfl

end PaddedModel

/-- The words of the fused layout. -/
def Fused.words (f : Fused) : Int → Nat := fun i => f.cp.getFlat i

/-- A word that is the sentinel, or a free cell's word for a value below `MAX_COST`. -/
def FusedProper (vi : ValueIterator) (i : Int) (h : Nat) : Prop :=
  ∀ p, OnPad vi p → i = vi.padIdx p → h = unreached ∨
    vi.dims.Contains p ∧ (vi.stateAt p).free = true ∧ wrappingSub h (vi.world.pen p) ≠ maxCost

section FusedModel

theorem fused_cp {p : Pos} (hp : OnPad vi p) : (Fused.buildDirect vi).cp.getFlat (vi.padIdx p) =
    if vi.dims.Contains p then
      (if (vi.stateAt p).free && vi.costs p != maxCost
        then wrappingAdd (vi.costs p) (vi.world.pen p) else unreached)
    else unreached :=
  padFill_getFlat unreached (fun s : State => if s.free && s.totalCost != maxCost
    then wrappingAdd s.totalCost s.pen else unreached) hp

theorem fused_pen {p : Pos} (hp : vi.dims.Contains p) :
    (Fused.buildDirect vi).pen.getFlat (vi.padIdx p) = vi.world.pen p := by
  have h := padFill_getFlat 0 (fun s : State => s.pen) (onPad_of_contains hp)
  rw [if_pos hp] at h
  exact h

theorem fused_evalOk {p : Pos} (hp : vi.dims.Contains p) :
    (Fused.buildDirect vi).evalOk.getFlat (vi.padIdx p) = vi.world.evaluable p := by
  have h := padFill_getFlat false (fun s : State => s.evaluable) (onPad_of_contains hp)
  rw [if_pos hp] at h
  simp only [world, decide_eq_true hp, Bool.true_and]
  exact h

theorem fused_before {p : Pos} (hp : vi.dims.Contains p) (h : Nat) :
    (Fused.buildDirect vi).cells.before (vi.padIdx p) h =
      if h = unreached then maxCost else wrappingSub h (vi.world.pen p) := by
  simp only [Fused.cells, fused_pen hp, beq_iff_eq]

theorem fused_after {p : Pos} (hp : vi.dims.Contains p) (v : Nat) :
    (Fused.buildDirect vi).cells.after (vi.padIdx p) v = wrappingAdd v (vi.world.pen p) := by
  simp only [Fused.cells, fused_pen hp]

theorem Fused.models : (Fused.buildDirect vi).cells.Models vi (FusedProper vi) where
  skip_eq := by
    intro p hp
    simp only [Fused.cells, fused_evalOk hp]
  hidden := by
    intro p hpad hnot
    right
    intro h hprop
    rcases hprop p hpad rfl with hun | ⟨hp, hfree, _⟩
    · exact if_pos (by rw [hun]; exact beq_self_eq_true _)
    · exact absurd ⟨hp, hfree⟩ hnot
  visible _ _ _ := rfl
  weigh_eq := by
    intro p hp _ h hprop
    rw [fused_before hp]
    rcases hprop p (onPad_of_contains hp) rfl with hun | ⟨_, _, hne⟩
    · left
      rw [if_pos hun]
      exact ⟨if_pos (by rw [hun]; exact beq_self_eq_true _), rfl⟩
    · by_cases hun : h = unreached
      · left
        rw [if_pos hun]
        exact ⟨if_pos (by rw [hun]; exact beq_self_eq_true _), rfl⟩
      · right
        rw [if_neg hun]
        exact ⟨h, if_neg (by simpa using hun), hne, wrappingSub_add_mod h _⟩
  after_injective := by
    intro p hp v v' hv hv' h
    rw [fused_after hp, fused_after hp] at h
    exact wrappingAdd_injective hv hv' h

/-- A value whose word is not mistaken for the sentinel. -/
theorem Fused.fits {p : Pos} (hp : vi.dims.Contains p) {v : Nat} (hv : v < word)
    (h : v = maxCost ∨ wrappingAdd v (vi.world.pen p) ≠ unreached) :
    (Fused.buildDirect vi).cells.Fits vi p v := by
  rw [CellModel.Fits, fused_before hp, fused_after hp]
  by_cases hun : wrappingAdd v (vi.world.pen p) = unreached
  · rw [if_pos hun]
    exact (h.resolve_right fun hne => hne hun).symm
  · rw [if_neg hun, wrappingSub_wrappingAdd hv]

/-- The start is proper when its values are machine words. -/
theorem fusedProper_words (hw : ∀ p, vi.dims.Contains p → vi.costs p < word) :
    ∀ i, FusedProper vi i ((Fused.buildDirect vi).words i) := by
  rintro i p hpad rfl
  rw [Fused.words, fused_cp hpad]
  by_cases hp : vi.dims.Contains p
  · rw [if_pos hp]
    split
    · next hfm =>
      right
      simp only [Bool.and_eq_true, bne_iff_ne, ne_eq] at hfm
      refine ⟨hp, hfm.1, ?_⟩
      rw [wrappingSub_wrappingAdd (hw p hp)]
      exact hfm.2
    · exact Or.inl rfl
  · rw [if_neg hp]
    exact Or.inl rfl

/-- The start stands for its values on the free cells, where they fit. -/
theorem Fused.field_words {p : Pos} (hp : vi.dims.Contains p) (hw : vi.costs p < word)
    (hfit : vi.costs p = maxCost ∨ wrappingAdd (vi.costs p) (vi.world.pen p) ≠ unreached)
    (hfree : (vi.stateAt p).free = true ∨ vi.costs p = maxCost) :
    (Fused.buildDirect vi).cells.field vi (Fused.buildDirect vi).words p = vi.costs p := by
  rw [CellModel.field_of_contains hp, fused_before hp, Fused.words, fused_cp (onPad_of_contains hp),
    if_pos hp]
  by_cases hmax : vi.costs p = maxCost
  · rw [hmax]
    simp
  · have hf := hfree.resolve_right hmax
    have hne := hfit.resolve_left hmax
    simp only [hf, bne_iff_ne.mpr hmax, Bool.and_self, if_true, if_neg hne,
      wrappingSub_wrappingAdd hw]

variable {cands : List (Nat × Nat)} {its : Nat × Nat → List Nat} {mem fin : Int → Nat}
  {logs : List (List ((Nat × Nat) × List (Nat × Nat)))} {nthreads : Nat}
  {sched : List (Nat × Bool)}

/-- A round from a supported field keeps words proper and reached states reached. -/
theorem Fused.round_proper (hstart : ∀ i, FusedProper vi i (mem i))
    (hcand : Candidates vi cands its) (hn : 0 < nthreads)
    (hrun : ((Fused.buildDirect vi).cells.round vi cands its).run nthreads mem sched =
      some (fin, logs)) (hfits : (Fused.buildDirect vi).cells.AllFit vi logs.flatten)
    (hsupp : vi.world.Supported ((Fused.buildDirect vi).cells.field vi mem)) :
    (∀ i, FusedProper vi i (fin i)) ∧ ∀ p, vi.dims.Contains p →
      (Fused.buildDirect vi).cells.field vi mem p ≠ maxCost →
        (Fused.buildDirect vi).cells.field vi fin p ≠ maxCost := by
  let m := (Fused.buildDirect vi).cells
  let P : Int → Nat → Prop := fun i h => FusedProper vi i h ∧ (h = mem i ∨ h = fin i) ∧
    ∀ p, vi.dims.Contains p → i = vi.padIdx p → m.before i (mem i) ≠ maxCost →
      m.before i h ≠ maxCost
  have hPmem : ∀ i, P i (mem i) := fun i => ⟨hstart i, Or.inl rfl, fun _ _ _ h => h⟩
  have hPfin : ∀ i, P i (fin i) := by
    refine Round.run_keeps hcand.lawful hrun ?_ hPmem
    intro c hc
    refine CellModel.evalThetas_keeps Fused.models (fun i h hP => hP.1) (hcand.inMap c hc) _
      (hcand.headings c hc).2 ?_
    intro it hit hev h r i hPh hbacks hne hstored
    have hcon := thetaPos_contains (hcand.inMap c hc) ((hcand.headings c hc).2 it hit)
    have hrlt : r.1 < word := by
      obtain ⟨cs, _, rfl⟩ := hbacks
      exact (Argmin.argminBelow_le _ _).trans_lt maxCost_lt_word
    rw [← hstored]
    rcases CellModel.round_before_after Fused.models hcand hn hrun hfits hcon hrlt hstored with
      hsame | ⟨_, hval⟩
    · have hmi : fin i = mem i := hsame
      rw [hmi]
      exact hPmem i
    have hval' : m.before i (fin i) = r.1 := hval
    -- the new value is below `MAX_COST`: either the state was reached and keeps an
    -- action with reached outcomes, or the move itself left `MAX_COST`
    have hrne : r.1 ≠ maxCost := by
      by_cases hreach : m.before i (mem i) = maxCost
      · rcases hPh.2.1 with hh | hh
        · rw [hh, hreach] at hne
          exact hne
        · rw [hh] at hne
          exact absurd hval'.symm hne
      · have hfield : m.field vi mem (thetaPos c it) ≠ maxCost := by
          rw [CellModel.field_of_contains hcon]
          exact hreach
        obtain ⟨row, hrow, hall⟩ := hsupp _ hev hfield
        have hlt := hbacks.lt_of_reached hrow (by
          rintro ⟨t, q⟩ ho v ⟨g, ⟨_, _, hkeep⟩, rfl⟩
          have hct := (reads_inBox hcon ⟨row, hrow, q, ho⟩).1
          have hmem := hall (t, q) ho
          rw [CellModel.field_of_contains hct] at hmem
          exact hkeep t hct rfl hmem)
        exact (hlt.trans productLimit_lt_maxCost).ne
    refine ⟨?_, Or.inr rfl, fun _ _ _ _ => by rw [hval']; exact hrne⟩
    intro p hpad heq
    have hps := padIdx_injective hpad (onPad_of_contains hcon) heq.symm
    subst hps
    by_cases hun : fin i = unreached
    · exact Or.inl hun
    · right
      refine ⟨hcon, (evaluable_iff.mp hev).2.1, ?_⟩
      have hb := hval'
      rw [fused_before hcon, if_neg hun] at hb
      rw [hb]
      exact hrne
  refine ⟨fun i => (hPfin i).1, ?_⟩
  intro p hp hne
  rw [CellModel.field_of_contains hp] at hne ⊢
  exact (hPfin (vi.padIdx p)).2.2 p hp rfl hne

end FusedModel

end ValueIteration
