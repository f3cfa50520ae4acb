import ValueIteration.Fpga.Shortest

/-!
# Who processes a strip

Both units of the stream kernel work out their strips from `num_strips` alone. With an even
number no strip is shared and no write brings back an older value; the middle strip of an
odd number belongs to both units.
-/

set_option autoImplicit false

namespace ValueIteration.Fpga

open Replica

/-- A list put together from parts that share nothing. -/
theorem nodup_flatMap_of_owner {α β : Type} {l : List α} {f : α → List β} (hl : l.Nodup)
    (hf : ∀ a ∈ l, (f a).Nodup) (howner : ∀ a ∈ l, ∀ b ∈ l, ∀ x ∈ f a, x ∈ f b → a = b) :
    (l.flatMap f).Nodup := by
  refine List.nodup_flatMap.mpr ⟨hf, ?_⟩
  apply hl.imp_of_mem
  intro a b ha hb hab x hxa hxb
  exact hab (howner a ha b hb x hxa hxb)

namespace Scene

variable {sc : Scene}

theorem nodup_column (x y : Int) : (column x y).Nodup := by
  apply List.Nodup.map _ List.nodup_range
  intro a b hab
  simp only [Pos.mk.injEq] at hab
  omega

theorem nodup_rowCellsOf (cuId : Nat) (raw stripX0 : Int) (stripW : Nat) :
    (sc.rowCellsOf cuId raw stripX0 stripW).Nodup := by
  apply List.Nodup.map _ ((stripColumns_perm cuId stripW).nodup_iff.mp List.nodup_range)
  intro a b hab
  simp only [Prod.mk.injEq] at hab
  omega

theorem mem_rowCellsOf {cuId : Nat} {raw stripX0 : Int} {stripW : Nat} {c : Int × Int}
    (h : c ∈ sc.rowCellsOf cuId raw stripX0 stripW) :
    (stripX0 ≤ c.1 ∧ c.1 < stripX0 + stripW) ∧ c.2 = sc.rawRow cuId raw := by
  obtain ⟨ix, hix, rfl⟩ := List.mem_map.mp h
  have hlt := List.mem_range.mp ((stripColumns_perm cuId stripW).mem_iff.mpr hix)
  exact ⟨by simp only; omega, rfl⟩

/-- A unit goes through each of its cells once. -/
theorem nodup_cuStripCells (cuId : Nat) : (sc.cuStripCells cuId).Nodup := by
  have hrow : ∀ {sx : Int} {c : Int × Int}, c ∈ (List.range sc.mapY).flatMap (fun (raw : Nat) =>
      sc.rowCellsOf cuId raw (stripX0 sx) (sc.stripW sx)) → c.1 / 145 = sx := by
    intro sx c h
    obtain ⟨raw, _, h⟩ := List.mem_flatMap.mp h
    have hc := (mem_rowCellsOf h).1
    rw [stripX0_eq, stripW_eq] at hc
    omega
  apply nodup_flatMap_of_owner (nodup_cuStrips cuId)
  · intro sx _
    apply nodup_flatMap_of_owner List.nodup_range
    · intro raw _
      exact nodup_rowCellsOf _ _ _ _
    · intro a _ b _ c ha hb
      have hraw := rawRow_inj.mp ((mem_rowCellsOf ha).2.symm.trans (mem_rowCellsOf hb).2)
      omega
  · intro a _ b _ c ha hb
    rw [← hrow ha, hrow hb]

theorem nodup_cuRounds (cuId : Nat) : ((sc.cuRounds cuId).flatMap Round.relaxed).Nodup := by
  rw [cuRounds_relaxed]
  apply nodup_flatMap_of_owner (nodup_cuStripCells cuId)
  · intro c _
    exact nodup_column _ _
  · intro a _ b _ s ha hb
    obtain ⟨hax, hay, _⟩ := mem_column.mp ha
    obtain ⟨hbx, hby, _⟩ := mem_column.mp hb
    exact Prod.ext (hax.symm.trans hbx) (hay.symm.trans hby)

/-! ## The split -/

/-- Every strip is processed by exactly one of the two units. -/
def SplitsStrips (sc : Scene) : Prop :=
  ∀ sx : Int, 0 ≤ sx → sx < sc.numStrips → ∃! cuId : Fin 2, sx ∈ sc.cuStrips cuId

theorem shares_middle (hodd : ¬ sc.numStrips % 2 = 0) (cuId : Fin 2) :
    ((sc.numStrips / 2 : Nat) : Int) ∈ sc.cuStrips cuId := by
  have hhalf : sc.halfStrips = (sc.numStrips + 1) / 2 := rfl
  match cuId with
  | 0 => exact mem_cuStrips_left.mpr (by omega)
  | 1 => exact (mem_cuStrips_right (by decide)).mpr (by omega)

theorem disjoint_cuStrips (heven : sc.numStrips % 2 = 0) {i j : Fin 2} {sx : Int}
    (hi : sx ∈ sc.cuStrips i) (hj : sx ∈ sc.cuStrips j) : i = j := by
  have hhalf : sc.halfStrips = (sc.numStrips + 1) / 2 := rfl
  have hcross : ∀ {sx : Int}, sx ∈ sc.cuStrips 0 → sx ∈ sc.cuStrips 1 → False := by
    intro sx h0 h1
    have hl := mem_cuStrips_left.mp h0
    have hr := (mem_cuStrips_right (by decide)).mp h1
    omega
  match i, j with
  | 0, 0 => rfl
  | 1, 1 => rfl
  | 0, 1 => exact (hcross hi hj).elim
  | 1, 0 => exact (hcross hj hi).elim

theorem splitsStrips_iff : sc.SplitsStrips ↔ sc.numStrips % 2 = 0 := by
  have hhalf : sc.halfStrips = (sc.numStrips + 1) / 2 := rfl
  constructor
  · intro h
    by_contra hodd
    obtain ⟨i, _, honly⟩ := h (sc.numStrips / 2 : Nat) (by omega) (by omega)
    have h0 := honly 0 (shares_middle hodd 0)
    have h1 := honly 1 (shares_middle hodd 1)
    rw [← h1] at h0
    exact absurd h0 (by decide)
  · intro heven sx h0 h1
    by_cases hleft : sx < sc.halfStrips
    · exact ⟨0, mem_cuStrips_left.mpr ⟨h0, hleft⟩, fun j hj =>
        disjoint_cuStrips heven hj (mem_cuStrips_left.mpr ⟨h0, hleft⟩)⟩
    · have hmem : sx ∈ sc.cuStrips (1 : Fin 2) :=
        (mem_cuStrips_right (by decide)).mpr (by omega)
      exact ⟨1, hmem, fun j hj => disjoint_cuStrips heven hj hmem⟩

/-! ## No write raises a value -/

/-- The tables a solve with the stream kernel comes by, sweep after sweep. -/
inductive StreamSolve (seeds : sc.Seeds) : Grid U16 → Prop where
  | blank : StreamSolve seeds (blank seeds)
  | sweep {value} (l : Launch streamBufW windowRows) : StreamSolve seeds value →
      bothDone (during sc.streamPrograms l value) = true →
      StreamSolve seeds (during sc.streamPrograms l value).mem

/-- At whatever moment of whatever sweep, the word a unit is about to write is not above
the one it replaces. -/
def NeverRaises (seeds : sc.Seeds) : Prop :=
  ∀ {value : Grid U16}, StreamSolve seeds value → ∀ (l : Launch streamBufW windowRows)
    {i : Fin 2} {a : Pos} {f : Chip streamBufW windowRows → U16}
    {p : Program streamBufW windowRows},
    (during sc.streamPrograms l value).rest i = .store a f :: p →
      f ((during sc.streamPrograms l value).state i) ≤
        (during sc.streamPrograms l value).mem.get a

/-- Off the map everything is unreached. -/
def onMap (sc : Scene) (f : Pos → U16) (s : Pos) : U16 :=
  if sc.dims.Contains s then f s else maxValue

theorem onMap_of_contains {f : Pos → U16} {s : Pos} (hs : sc.dims.Contains s) :
    sc.onMap f s = f s := if_pos hs

theorem update_onMap (hc : sc.Contract) (f : Pos → U16) {s : Pos} (hs : sc.dims.Contains s) :
    sc.update (sc.onMap f) s = sc.update f s :=
  hc.reads_contains hs _ _ fun _ ht => onMap_of_contains ht

/-- A table of the right shape that no update raises. -/
structure Relaxable (sc : Scene) (value : Grid U16) : Prop where
  dims : value.dims = sc.dims
  update_le : ∀ s, sc.dims.Contains s → sc.update value.get s ≤ value.get s

theorem relaxable_blank (seeds : sc.Seeds) : Relaxable sc (blank seeds) := by
  refine ⟨rfl, ?_⟩
  intro s hs
  by_cases hfree : sc.Free s
  · rw [blank_get hs, if_neg fun hseed => not_free_of_seeded hseed hfree]
    exact le_maxValue _
  · rw [update_of_skip (not_not.mp hfree)]

theorem Relaxable.onMap_le (hc : sc.Contract) {value : Grid U16} (h : Relaxable sc value)
    (s : Pos) : sc.update (sc.onMap value.get) s ≤ sc.onMap value.get s := by
  by_cases hs : sc.dims.Contains s
  · rw [update_onMap hc _ hs, onMap_of_contains hs]
    exact h.update_le s hs
  · rw [onMap, if_neg hs]
    exact le_maxValue _

/-- With the strips split, a sweep is one of workers that own what they write. -/
theorem Relaxable.falling (hc : sc.Contract) (ht : sc.Translates)
    (heven : sc.numStrips % 2 = 0) {value : Grid U16} (h : Relaxable sc value)
    (l : Launch streamBufW windowRows) :
    ∃ τ : Crew (Fin 2) (Op Pos) (Sheet Pos U16 U16) (Pos → U16),
      Tracks ddr (fun g => g.dims = sc.dims) sc.dims.Contains sc.update gap
        (fun _ c r => r.delta = c.globalMax) (during sc.streamPrograms l value) τ ∧
      ∃ own E held, Falling sc.update (sc.onMap value.get) own E held τ := by
  obtain ⟨sched, htracks⟩ := (streamKernel hc ht).tracks l h.dims
    (f := sc.onMap value.get) fun s hs => (onMap_of_contains hs).symm
  refine ⟨_, htracks, fun i s => s ∈ (sc.cuRounds i).flatMap Round.relaxed, ?_⟩
  have hown : ∀ (i j : Fin 2) (s : Pos), s ∈ (sc.cuRounds i).flatMap Round.relaxed →
      s ∈ (sc.cuRounds j).flatMap Round.relaxed → i = j := by
    intro i j s hi hj
    exact disjoint_cuStrips heven (mem_cuRounds_relaxed.mp hi).2 (mem_cuRounds_relaxed.mp hj).2
  have htidy : ∀ i : Fin 2, Tidy (fun s => s ∈ (sc.cuRounds i).flatMap Round.relaxed)
      (fun _ => False) ((sc.cuRounds i).flatMap Round.ops) :=
    fun i => tidy_rounds (fun _ hs => hs) (nodup_cuRounds i)
  exact Falling.run update_monotone (h.onMap_le hc) hown sched
    ⟨_, _, Falling.start (h.onMap_le hc) htidy⟩

theorem Relaxable.sweep (hc : sc.Contract) (ht : sc.Translates)
    (heven : sc.numStrips % 2 = 0) {value : Grid U16} (h : Relaxable sc value)
    (l : Launch streamBufW windowRows)
    (hdone : bothDone (during sc.streamPrograms l value) = true) :
    Relaxable sc (during sc.streamPrograms l value).mem := by
  obtain ⟨τ, htracks, _, _, _, hfall⟩ := h.falling hc ht heven l
  have hfin := (htracks.finished (finished_of_bothDone hdone)).1
  refine ⟨htracks.mem.mok, ?_⟩
  intro s hs
  have hget : ∀ t, sc.dims.Contains t →
      (during sc.streamPrograms l value).mem.get t = τ.mem t := htracks.mem.get
  rw [hget s hs, hc.reads_contains hs _ τ.mem hget]
  exact hfall.relaxed_le_of_finished hfin s

theorem StreamSolve.relaxable (hc : sc.Contract) (ht : sc.Translates)
    (heven : sc.numStrips % 2 = 0) {seeds : sc.Seeds} {value : Grid U16}
    (h : StreamSolve seeds value) : Relaxable sc value := by
  induction h with
  | blank => exact relaxable_blank seeds
  | sweep l _ hdone ih => exact ih.sweep hc ht heven l hdone

theorem neverRaises_of_even (hc : sc.Contract) (ht : sc.Translates)
    (heven : sc.numStrips % 2 = 0) (seeds : sc.Seeds) : NeverRaises seeds := by
  intro value hsolve l i a f p hrest
  obtain ⟨τ, htracks, _, _, _, hfall⟩ := (hsolve.relaxable hc ht heven).falling hc ht heven l
  have hfollows := htracks.follows i
  rw [hrest] at hfollows
  obtain ⟨q, hq, ha, heq⟩ := hfollows.store_inv
  have hget : (during sc.streamPrograms l value).mem.get a = τ.mem a := htracks.mem.get a ha
  rw [hget, heq]
  exact hfall.flush_le hq

/-- The units lose no update exactly when the number of strips is even. -/
theorem losesNoUpdate_iff (hc : sc.Contract) (ht : sc.Translates) :
    (sc.SplitsStrips ∧ ∀ seeds : sc.Seeds, NeverRaises seeds) ↔ sc.numStrips % 2 = 0 := by
  rw [splitsStrips_iff]
  constructor
  · intro h
    exact h.1
  · intro heven
    exact ⟨heven, neverRaises_of_even hc ht heven⟩

/-- A lane of two strips, one for each unit. -/
theorem losesNoUpdate_iff_lane : (lane (List.replicate 200 7)).SplitsStrips ∧
    ∀ seeds : (lane (List.replicate 200 7)).Seeds, NeverRaises seeds :=
  (losesNoUpdate_iff (lane_contract _) (lane_translates _)).mpr (by decide +kernel)

/-- On a map of one strip both units process it. -/
theorem not_losesNoUpdate : ¬ ((lane [penaltyGoal, 7, 7]).SplitsStrips ∧
    ∀ seeds : (lane [penaltyGoal, 7, 7]).Seeds, NeverRaises seeds) := by
  rintro ⟨hsplit, _⟩
  exact absurd (splitsStrips_iff.mp hsplit) (by decide)

end Scene

end ValueIteration.Fpga
