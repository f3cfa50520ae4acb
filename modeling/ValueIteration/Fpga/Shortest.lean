import Mathlib.Order.Bounds.Basic
import ValueIteration.Fpga.Units

/-!
# Converged tables are shortest path tables

Every value about is the cost of some action path to a seeded goal; a table that one more
sweep does not change is below the cost of every path.
-/

set_option autoImplicit false

namespace ValueIteration.Fpga

open Replica

namespace Scene

/-- The states seeded with value `0`, all in goal cells. -/
structure Seeds (sc : Scene) where
  seeded : Pos → Bool
  in_goal : ∀ s, seeded s = true → sc.pen s.ix s.iy = penaltyGoal

variable {sc : Scene}

/-- Neither obstacle nor goal: the states that are updated. -/
def Free (sc : Scene) (s : Pos) : Prop := ¬ sc.pen s.ix s.iy ≥ penaltyGoal

instance (s : Pos) : Decidable (sc.Free s) := by unfold Free; infer_instance

/-- The table a solve starts from. -/
def blank (seeds : sc.Seeds) : Grid U16 :=
  Grid.ofFn sc.dims fun s => if seeds.seeded s then 0 else maxValue

/-- An action path from `s` to a seeded goal whose entered cells sum up to `c`. -/
inductive Reaches (seeds : sc.Seeds) : Pos → Nat → Prop where
  | goal {s} : seeds.seeded s = true → Reaches seeds s 0
  | step {s a c} : sc.Free s → a < nActions → sc.InMap (sc.succ s a).ix (sc.succ s a).iy →
      sc.pen (sc.succ s a).ix (sc.succ s a).iy ≠ penaltyObstacle →
      Reaches seeds (sc.succ s a) c →
      Reaches seeds s (entry (sc.pen (sc.succ s a).ix (sc.succ s a).iy) + c)

/-- Free states have the saturated cost of their shortest paths, the others what they were
seeded with. -/
structure ShortestTable (seeds : sc.Seeds) (value : Grid U16) : Prop where
  dims : value.dims = sc.dims
  reached : ∀ s, sc.dims.Contains s → sc.Free s → ∀ d, IsLeast {c | Reaches seeds s c} d →
    (value.get s).val = min 65534 d
  unreached : ∀ s, sc.dims.Contains s → sc.Free s →
    (value.get s = maxValue ↔ ¬ ∃ c, Reaches seeds s c)
  kept : ∀ s, sc.dims.Contains s → ¬ sc.Free s → value.get s = (blank seeds).get s

/-! ## Values are founded on paths -/

/-- A finite value is at least the cost of some path; what is not free keeps its value. -/
def Founded (seeds : sc.Seeds) (s : Pos) (v : U16) : Prop :=
  sc.dims.Contains s →
    (sc.Free s → v ≠ maxValue → ∃ c, Reaches seeds s c ∧ min 65534 c ≤ v.val) ∧
      (¬ sc.Free s → v = (blank seeds).get s)

theorem blank_get {seeds : sc.Seeds} {s : Pos} (hs : sc.dims.Contains s) :
    (blank seeds).get s = if seeds.seeded s then 0 else maxValue := Grid.get_ofFn _ hs

theorem not_free_of_seeded {seeds : sc.Seeds} {s : Pos} (h : seeds.seeded s = true) :
    ¬ sc.Free s := by
  intro hfree
  apply hfree
  rw [seeds.in_goal s h]

theorem founded_blank (seeds : sc.Seeds) (s : Pos) : Founded seeds s ((blank seeds).get s) := by
  intro hs
  refine ⟨?_, fun _ => rfl⟩
  intro hfree hne
  rw [blank_get hs] at hne
  exact absurd hfree (not_free_of_seeded (by
    by_contra hnot
    rw [if_neg hnot] at hne
    exact hne rfl))

/-- A finite value of any state that can be entered comes from a path. -/
theorem Founded.path {seeds : sc.Seeds} {s : Pos} {v : U16} (h : Founded seeds s v)
    (hs : sc.dims.Contains s) (hv : v ≠ maxValue) :
    ∃ c, Reaches seeds s c ∧ min 65534 c ≤ v.val := by
  by_cases hfree : sc.Free s
  · exact (h hs).1 hfree hv
  · have hblank := (h hs).2 hfree
    rw [blank_get hs] at hblank
    by_cases hseed : seeds.seeded s = true
    · exact ⟨0, .goal hseed, by omega⟩
    · rw [if_neg hseed] at hblank
      exact absurd hblank hv

/-- The update of a state keeps its value founded. -/
theorem founded_update (hc : sc.Contract) {seeds : sc.Seeds} {f : Pos → U16}
    (hf : ∀ s, Founded seeds s (f s)) (s : Pos) : Founded seeds s (sc.update f s) := by
  intro hs
  refine ⟨?_, ?_⟩
  · intro hfree hne
    rw [update_of_free hfree] at hne ⊢
    rcases (best_attained f s : sc.best f s = _ ∨ _) with hmax | ⟨a, ha, hcost⟩
    · exact absurd hmax hne
    · rw [hcost] at hne ⊢
      by_cases hin : sc.InMap (sc.succ s a).ix (sc.succ s a).iy
      · rw [cost_of_inMap hin] at hne ⊢
        have hboth : ¬ (f (sc.succ s a) = maxValue ∨
            sc.pen (sc.succ s a).ix (sc.succ s a).iy = penaltyObstacle) :=
          fun hor => hne (costOf_eq_maxValue_iff.mpr hor)
        rw [not_or] at hboth
        have hsucc := hc.succ_contains (contains_iff.mp hs).2 ha hin
        obtain ⟨c, hpath, hle⟩ := (hf (sc.succ s a)).path hsucc hboth.1
        refine ⟨_, .step hfree ha hin hboth.2 hpath, ?_⟩
        rw [costOf_val hboth.1 hboth.2]
        omega
      · exact absurd (cost_of_out hin f) hne
  · intro hfree
    have hskip : sc.pen s.ix s.iy ≥ penaltyGoal := not_not.mp hfree
    rw [update_of_skip hskip]
    exact (hf s hs).2 hfree

/-! ## A settled table is shortest -/

theorem Reaches.le_of_settled (hc : sc.Contract) {seeds : sc.Seeds} {f : Pos → U16}
    (hf : ∀ s, Founded seeds s (f s))
    (hfix : ∀ s, sc.dims.Contains s → sc.update f s = f s) {s : Pos} {c : Nat}
    (h : Reaches seeds s c) : sc.dims.Contains s → (f s).val ≤ min 65534 c := by
  induction h with
  | @goal s hseed =>
    intro hs
    rw [(hf s hs).2 (not_free_of_seeded hseed), blank_get hs, if_pos hseed]
    exact Nat.zero_le _
  | @step s a c hfree ha hin hpen _ ih =>
    intro hs
    have hle := ih (hc.succ_contains (contains_iff.mp hs).2 ha hin)
    have hne : f (sc.succ s a) ≠ maxValue := by
      intro heq
      rw [heq, show maxValue.val = 65535 from rfl] at hle
      omega
    have hbest : f s ≤ sc.cost f s a := by
      rw [← hfix s hs, update_of_free hfree]
      exact best_le_cost ha f s
    rw [cost_of_inMap hin, Fin.le_def, costOf_val hne hpen] at hbest
    omega

theorem shortest_of_settled (hc : sc.Contract) {seeds : sc.Seeds} {f : Pos → U16}
    (hf : ∀ s, Founded seeds s (f s))
    (hfix : ∀ s, sc.dims.Contains s → sc.update f s = f s) {value : Grid U16}
    (hdims : value.dims = sc.dims) (hget : ∀ s, sc.dims.Contains s → value.get s = f s) :
    ShortestTable seeds value := by
  have hpath : ∀ s, sc.dims.Contains s → sc.Free s →
      (value.get s = maxValue ↔ ¬ ∃ c, Reaches seeds s c) := by
    intro s hs hfree
    rw [hget s hs]
    constructor
    · rintro hmax ⟨c, hreach⟩
      have hle := hreach.le_of_settled hc hf hfix hs
      rw [hmax, show maxValue.val = 65535 from rfl] at hle
      omega
    · intro hnone
      by_contra hne
      obtain ⟨c, hreach, _⟩ := (hf s).path hs hne
      exact hnone ⟨c, hreach⟩
  refine ⟨hdims, ?_, hpath, ?_⟩
  · rintro s hs hfree d ⟨hd, hleast⟩
    have hle := Reaches.le_of_settled hc hf hfix hd hs
    have hne : value.get s ≠ maxValue := fun hmax => (hpath s hs hfree).mp hmax ⟨d, hd⟩
    rw [hget s hs] at hne ⊢
    obtain ⟨c, hreach, hc'⟩ := (hf s).path hs hne
    have hdc : d ≤ c := hleast hreach
    omega
  · intro s hs hfree
    rw [hget s hs]
    exact (hf s hs).2 hfree

/-- There is only one such table. -/
theorem ShortestTable.unique {seeds : sc.Seeds} {u v : Grid U16} (hu : ShortestTable seeds u)
    (hv : ShortestTable seeds v) : u = v := by
  apply Grid.eq_of_get (hu.dims.trans hv.dims.symm)
  intro s hs
  rw [hu.dims] at hs
  by_cases hfree : sc.Free s
  · by_cases hreach : ∃ c, Reaches seeds s c
    · obtain ⟨d, hleast⟩ : ∃ d, IsLeast {c | Reaches seeds s c} d := by
        classical
        exact ⟨Nat.find hreach, Nat.find_spec hreach, fun c hc => Nat.find_min' hreach hc⟩
      apply Fin.ext
      rw [hu.reached s hs hfree _ hleast, hv.reached s hs hfree _ hleast]
    · rw [(hu.unreached s hs hfree).mpr hreach, (hv.unreached s hs hfree).mpr hreach]
  · rw [hu.kept s hs hfree, hv.kept s hs hfree]

/-! ## The C reference -/

/-- Tables of the right shape with founded values. -/
structure Sound (seeds : sc.Seeds) (value : Grid U16) : Prop where
  dims : value.dims = sc.dims
  founded : ∀ s, Founded seeds s (value.get s)

theorem sound_blank (seeds : sc.Seeds) : Sound seeds (blank seeds) :=
  ⟨rfl, founded_blank seeds⟩

theorem Sound.of_shows {seeds : sc.Seeds} {v : Grid U16 × U16} {r : Sheet Pos U16 U16}
    (h : Shows sc v r) (hr : ∀ s, Founded seeds s (r.copy s)) : Sound seeds v.1 := by
  refine ⟨h.dims, ?_⟩
  intro s hs
  rw [h.get s hs]
  exact hr s hs

theorem mem_allCells {x y : Int} (h : sc.InMap x y) : (x, y) ∈ sc.allCells := by
  obtain ⟨⟨hx0, hx1⟩, hy0, hy1⟩ := h
  refine List.mem_flatMap.mpr ⟨y.toNat, List.mem_range.mpr (by omega), ?_⟩
  refine List.mem_map.mpr ⟨x.toNat, List.mem_range.mpr (by omega), ?_⟩
  rw [Int.toNat_of_nonneg hx0, Int.toNat_of_nonneg hy0]

theorem inMap_of_mem_allCells {c : Int × Int} (h : c ∈ sc.allCells) : sc.InMap c.1 c.2 := by
  obtain ⟨y, hy, h⟩ := List.mem_flatMap.mp h
  obtain ⟨x, hx, rfl⟩ := List.mem_map.mp h
  rw [List.mem_range] at hx hy
  exact ⟨by simp only; omega, by simp only; omega⟩

/-- One sweep of the reference keeps tables sound, and without a change the table is
shortest. -/
theorem Sound.referenceSweep (hc : sc.Contract) {seeds : sc.Seeds} {value : Grid U16}
    (h : Sound seeds value) : Sound seeds (sc.viBellmanCells sc.allCells value).1 ∧
      ((sc.viBellmanCells sc.allCells value).2 = 0 →
        ShortestTable seeds (sc.viBellmanCells sc.allCells value).1) := by
  have hshows := Shows.viBellmanCells hc (fun c hc => inMap_of_mem_allCells hc)
    (f := value.get) ⟨h.dims, fun _ _ => rfl, rfl⟩
  refine ⟨Sound.of_shows hshows (relaxAll_within (fun V hV => founded_update hc hV) _
    h.founded), ?_⟩
  intro hdelta
  obtain ⟨hcopy, hsettled⟩ := relaxAll_still (fun _ _ => eq_of_gap_eq_zero) _
    (hshows.delta.symm.trans hdelta)
  refine shortest_of_settled hc h.founded ?_ hshows.dims ?_
  · intro s hs
    apply hsettled
    refine List.mem_flatMap.mpr ⟨(s.ix, s.iy), mem_allCells (contains_iff.mp hs).1, ?_⟩
    exact mem_column.mpr ⟨rfl, rfl, (contains_iff.mp hs).2⟩
  · intro s hs
    rw [hshows.get s hs, hcopy]

theorem Sound.referenceRun (hc : sc.Contract) {seeds : sc.Seeds} (left : Nat) :
    ∀ {sweep : Nat} {last : U16} {value : Grid U16}, Sound seeds value → last ≠ 0 →
      (sc.viReferenceRun 0 left sweep last value).2.2 ≤ 0 →
      ShortestTable seeds (sc.viReferenceRun 0 left sweep last value).1 := by
  induction left with
  | zero =>
    intro sweep last value _ hlast hle
    exact absurd (Fin.le_zero_iff.mp hle) hlast
  | succ left ih =>
    intro sweep last value h hlast
    obtain ⟨hsound, hshortest⟩ := h.referenceSweep hc
    simp only [viReferenceRun]
    split
    · next hle =>
      intro _
      exact hshortest (Fin.le_zero_iff.mp hle)
    · next hgt =>
      exact ih hsound fun hzero => hgt (by rw [hzero])

/-! ## The kernels -/

section Kernels

variable {w h : Nat}

/-- Whatever the schedule, the units of a kernel are workers with private copies. -/
theorem Kernel.tracks (k : sc.Kernel w h) (l : Launch w h) {value : Grid U16}
    {f : Pos → U16} (hdims : value.dims = sc.dims)
    (hf : ∀ s, sc.dims.Contains s → value.get s = f s) :
    ∃ sched, Tracks ddr (fun g => g.dims = sc.dims) sc.dims.Contains sc.update gap
      (fun _ c r => r.delta = c.globalMax) (during k.program l value)
      (Crew.run (exec sc.update gap) sched
        ⟨f, fun _ => ⟨f, 0⟩, fun i => (k.rounds i).flatMap Round.ops⟩) :=
  Tracks.run (ddr_lawful sc.dims) l.sched ⟨⟨hdims, hf⟩, fun i => k.follows i (l.bram i) f⟩

/-- One sweep of two units keeps tables sound, and without a change the table is shortest. -/
theorem Sound.sweep (hc : sc.Contract) (k : sc.Kernel w h) (l : Launch w h)
    {seeds : sc.Seeds} {value : Grid U16} (h : Sound seeds value)
    (hdone : bothDone (during k.program l value) = true) :
    Sound seeds (during k.program l value).mem ∧
      (((during k.program l value).state 0).globalMax = 0 →
        ((during k.program l value).state 1).globalMax = 0 →
        ShortestTable seeds (during k.program l value).mem) := by
  obtain ⟨sched, htracks⟩ := k.tracks l h.dims fun _ _ => rfl
  generalize during k.program l value = σ at hdone htracks ⊢
  obtain ⟨hfin, hdelta⟩ := htracks.finished (finished_of_bothDone hdone)
  have hwithin := Within.run (F := sc.update) (G := gap) (P := Founded seeds)
    (fun V hV => founded_update hc hV) sched
    (σ := ⟨value.get, fun _ => ⟨value.get, 0⟩, fun i => (k.rounds i).flatMap Round.ops⟩)
    ⟨h.founded, fun _ => h.founded⟩
  refine ⟨⟨htracks.mem.mok, ?_⟩, ?_⟩
  · intro s hs
    have hget : σ.mem.get s = _ := htracks.mem.get s hs
    rw [hget]
    exact hwithin.mem s hs
  · intro h0 h1
    have hzero : ∀ i : Fin 2, (σ.state i).globalMax = 0 := by
      intro i
      match i with
      | 0 => exact h0
      | 1 => exact h1
    have hstart : Still sc.update value.get (fun i => (k.rounds i).flatMap Round.ops)
        (⟨value.get, fun _ => ⟨value.get, (0 : U16)⟩,
          fun i => (k.rounds i).flatMap Round.ops⟩ : Crew (Fin 2) _ _ _) :=
      ⟨rfl, fun _ => rfl, fun i => ⟨[], rfl, by simp⟩⟩
    have hstill := hstart.run (G := gap) (fun _ _ => eq_of_gap_eq_zero) sched fun i =>
      (hdelta i).trans (hzero i)
    refine shortest_of_settled hc h.founded ?_ htracks.mem.mok ?_
    · intro s hs
      obtain ⟨i, hi⟩ := k.covers s hs
      rw [← relaxedBy_flatMap_ops] at hi
      exact hstill.settled_of_finished hfin hi
    · intro s hs
      have hget : σ.mem.get s = _ := htracks.mem.get s hs
      rw [hget, hstill.mem]

/-- A table that no update changes is reported as converged by the next sweep. -/
theorem Kernel.ok_of_settled (k : sc.Kernel w h) (l : Launch w h) {value : Grid U16}
    (hdims : value.dims = sc.dims)
    (hfix : ∀ s, sc.dims.Contains s → sc.update value.get s = value.get s)
    (hdone : bothDone (during k.program l value) = true) (threshold : U16)
    (ls : List (Launch w h)) (sweep : Nat) (last : U16) :
    (Fpga.sweepLoop k.program threshold (l :: ls) sweep last value).status = .ok := by
  obtain ⟨sched, htracks⟩ := k.tracks l hdims fun _ _ => rfl
  obtain ⟨_, hdelta⟩ := htracks.finished (finished_of_bothDone hdone)
  have hstart : Idle sc.update value.get
      (⟨value.get, fun _ => ⟨value.get, (0 : U16)⟩,
        fun i => (k.rounds i).flatMap Round.ops⟩ : Crew (Fin 2) _ _ _) := by
    refine ⟨rfl, fun _ => rfl, fun _ => rfl, ?_⟩
    intro i s hs
    rw [relaxedBy_flatMap_ops] at hs
    exact hfix s (k.contains i s hs)
  have hidle := hstart.run (G := gap) gap_self sched
  have hzero : ∀ i, ((during k.program l value).state i).globalMax = 0 :=
    fun i => (hdelta i).symm.trans (hidle.delta i)
  simp only [Fpga.sweepLoop]
  rw [if_pos hdone, hzero 0, hzero 1, if_pos]
  simp

theorem Sound.sweepLoop (hc : sc.Contract) (k : sc.Kernel w h) {seeds : sc.Seeds}
    (launches : List (Launch w h)) : ∀ {sweep : Nat} {last : U16} {value : Grid U16},
      Sound seeds value →
      (sweepLoop k.program 0 launches sweep last value).status = .ok →
      ShortestTable seeds (sweepLoop k.program 0 launches sweep last value).value := by
  induction launches with
  | nil => intro sweep last value _ hok; cases hok
  | cons l ls ih =>
    intro sweep last value h
    simp only [Fpga.sweepLoop]
    split
    · next hdone =>
      obtain ⟨hsound, hshortest⟩ := h.sweep hc k l hdone
      rw [ite_gt_eq_max]
      split
      · next hle =>
        intro _
        have hmax := Fin.le_zero_iff.mp hle
        refine hshortest ?_ ?_
        · exact Fin.le_zero_iff.mp ((le_max_right _ _).trans hmax.le)
        · exact Fin.le_zero_iff.mp ((le_max_left _ _).trans hmax.le)
      · exact ih hsound
    · intro hok
      cases hok

theorem shortest_of_ok (hc : sc.Contract) (k : sc.Kernel w h) (seeds : sc.Seeds)
    {valueSize penSize : Nat} {launches : List (Launch w h)}
    (hok : (viRunUntilConverged sc valueSize penSize k.program 0 launches
      (blank seeds)).status = .ok) :
    ShortestTable seeds (viRunUntilConverged sc valueSize penSize k.program 0 launches
      (blank seeds)).value := by
  unfold viRunUntilConverged at hok ⊢
  split at hok
  · cases hok
  · split at hok
    · cases hok
    · split at hok
      · cases hok
      · next h1 h2 h3 =>
        rw [if_neg h1, if_neg h2, if_neg h3]
        exact (sound_blank seeds).sweepLoop hc k launches hok

end Kernels

/-- Whenever the reference, the tile kernel or the stream kernel reports convergence, with
threshold `0` and from the blank table, it leaves the table of shortest paths. -/
theorem converged_shortest (hc : sc.Contract) (seeds : sc.Seeds) :
    (∀ maxSweeps : Nat, (sc.viReferenceRun 0 maxSweeps 0 maxValue (blank seeds)).2.2 ≤ 0 →
      ShortestTable seeds (sc.viReferenceRun 0 maxSweeps 0 maxValue (blank seeds)).1) ∧
    (∀ (valueSize penSize : Nat) (launches : List (Launch tileWH tileHH)),
      (viRunUntilConverged sc valueSize penSize sc.tilePrograms 0 launches
        (blank seeds)).status = .ok →
      ShortestTable seeds (viRunUntilConverged sc valueSize penSize sc.tilePrograms 0 launches
        (blank seeds)).value) ∧
    (sc.Translates → ∀ (valueSize penSize : Nat) (launches : List (Launch streamBufW windowRows)),
      (viRunUntilConverged sc valueSize penSize sc.streamPrograms 0 launches
        (blank seeds)).status = .ok →
      ShortestTable seeds (viRunUntilConverged sc valueSize penSize sc.streamPrograms 0 launches
        (blank seeds)).value) ∧
    ∀ u v : Grid U16, ShortestTable seeds u → ShortestTable seeds v → u = v := by
  refine ⟨?_, ?_, ?_, fun u v hu hv => hu.unique hv⟩
  · intro maxSweeps
    exact (sound_blank seeds).referenceRun hc maxSweeps (by decide)
  · intro valueSize penSize launches hok
    exact shortest_of_ok hc (tileKernel hc) seeds hok
  · intro ht valueSize penSize launches hok
    exact shortest_of_ok hc (streamKernel hc ht) seeds hok

/-- All states of goal cells. -/
def allGoals (sc : Scene) : sc.Seeds where
  seeded s := sc.pen s.ix s.iy = penaltyGoal
  in_goal _ hs := of_decide_eq_true hs

section Lane

/-- One sweep of the tile kernel, its units served one after the other. -/
theorem tile_serial (hc : sc.Contract) (bram : Fin 2 → TileChip) {value : Grid U16}
    (hdims : value.dims = sc.dims) :
    let u := sc.viBellmanCells (sc.cuTileCells 0) value
    let v := sc.viBellmanCells (sc.cuTileCells 1) u.1
    let σ := during sc.tilePrograms (serial sc.tilePrograms bram) value
    σ.mem = v.1 ∧ (σ.state 0).globalMax = u.2 ∧ (σ.state 1).globalMax = v.2 := by
  intro u v σ
  obtain ⟨hmem, h0, h1⟩ := during_serial sc.tilePrograms bram value
  have hu := alone_viSweepProgram hc 0 (bram 0) hdims
  have hcells : ∀ c ∈ sc.cuTileCells 0, sc.InMap c.1 c.2 := by
    intro c hmem
    obtain ⟨t, _, hmem⟩ := List.mem_flatMap.mp hmem
    exact (mem_tileCells.mp hmem).1
  have hdims' : u.1.dims = sc.dims :=
    (Shows.viBellmanCells hc hcells (f := value.get) ⟨hdims, fun _ _ => rfl, rfl⟩).dims
  have hv := alone_viSweepProgram hc 1 (bram 1) hdims'
  have hu₁ : (Crew.alone (Instr.exec ddr) (sc.tilePrograms 0) (bram 0, value)).2 = u.1 :=
    congrArg Prod.fst hu
  rw [hu₁] at hmem h1
  refine ⟨hmem.trans (congrArg Prod.fst hv), ?_, ?_⟩
  · exact (congrArg Chip.globalMax h0).trans (congrArg Prod.snd hu)
  · exact (congrArg Chip.globalMax h1).trans (congrArg Prod.snd hv)

/-- A goal cell and two cells to its right. -/
def corridorLane : Scene := lane [penaltyGoal, 7, 9]

theorem corridorLane_contract : corridorLane.Contract := lane_contract _

/-- What is left to pay in a cell of that lane. -/
def toll (s : Pos) : U16 := if s.ix = 2 then 7 else 0

theorem corridorLane_goal (s : Pos) (hx : s.ix = 0) (hy : s.iy = 0) (f : Pos → U16) :
    corridorLane.update f s = f s := by
  apply update_of_skip
  rw [hx, hy]
  decide

theorem corridorLane_left {s : Pos} (hs : corridorLane.dims.Contains s) :
    corridorLane.succ s 1 = ⟨s.ix - 1, s.iy, s.it⟩ := by
  obtain ⟨_, ht0, ht1⟩ := contains_iff.mp hs
  have hit : s.it.toNat < nTheta := by
    unfold nTheta
    omega
  unfold succ corridorLane
  rw [lane_dix _ (by decide) hit, lane_diy _ (by decide) hit, lane_dit _ (by decide) hit]
  have hturn : nextTheta s.it (turn 1) = s.it := by
    unfold nextTheta
    simp only [show turn 1 = 0 from rfl, add_zero]
    rw [if_neg (by omega), if_neg (by omega)]
  rw [hturn]
  simp only [List.getD_cons_succ, List.getD_cons_zero, add_zero, Pos.mk.injEq, and_self, and_true]
  omega

/-- To the left of a settled cell a state gets its toll. -/
theorem corridorLane_update {s : Pos} (hs : corridorLane.dims.Contains s) {f : Pos → U16}
    (hx : s.ix = 1 ∨ s.ix = 2) (hf : f ⟨s.ix - 1, s.iy, s.it⟩ = 0) :
    corridorLane.update f s = toll s := by
  obtain ⟨⟨_, hy0, hy1⟩, _⟩ := contains_iff.mp hs
  have hy : s.iy = 0 := by
    have hone : (corridorLane.mapY : Int) = 1 := rfl
    omega
  have hleft := corridorLane_left hs
  have hcost : corridorLane.cost f s 1 = toll s := by
    have hin : corridorLane.InMap (s.ix - 1) s.iy := by
      rw [hy]
      rcases hx with hx | hx <;> rw [hx] <;> decide
    rw [cost_of_inMap (by rw [hleft]; exact hin), hleft, hf]
    unfold toll
    simp only
    rcases hx with hx | hx <;> rw [hx, hy] <;> decide
  have hfree : ¬ corridorLane.pen s.ix s.iy ≥ penaltyGoal := by
    rw [hy]
    rcases hx with hx | hx <;> rw [hx] <;> decide
  rw [update_of_free hfree]
  apply le_antisymm
  · rw [← hcost]
    exact best_le_cost (by decide) f s
  · rcases hx with hx | hx
    · unfold toll
      rw [if_neg (by omega)]
      exact Fin.zero_le _
    · -- every cell that can be entered from the last one costs `7` at least
      have htoll : toll s = 7 := if_pos hx
      rw [htoll]
      rcases best_attained f s with hmax | ⟨a, ha, hbest⟩
      · rw [hmax]
        decide
      · rw [hbest]
        by_cases hin : corridorLane.InMap (corridorLane.succ s a).ix (corridorLane.succ s a).iy
        · rw [cost_of_inMap hin]
          have hsucc : (corridorLane.succ s a).iy = 0 ∧
              ((corridorLane.succ s a).ix = 1 ∨ (corridorLane.succ s a).ix = 2) := by
            obtain ⟨_, ht0, ht1⟩ := contains_iff.mp hs
            have hit : s.it.toNat < nTheta := by
              unfold nTheta
              omega
            have hdix := lane_dix [penaltyGoal, 7, 9] ha hit
            have hdiy := lane_diy [penaltyGoal, 7, 9] ha hit
            obtain ⟨⟨_, hx1⟩, hy0, hy1⟩ := hin
            have hthree : (corridorLane.mapX : Int) = 3 := rfl
            have hone : (corridorLane.mapY : Int) = 1 := rfl
            have hge : ∀ a < nActions, (-1 : Int) ≤ [1, -1, 0, 0, 1, 1].getD a 0 := by decide
            have hstep := hge a ha
            rw [← hdix] at hstep
            have hix : (corridorLane.succ s a).ix =
                s.ix + (lane [penaltyGoal, 7, 9]).dix a s.it.toNat := rfl
            omega
          by_cases hmax : f (corridorLane.succ s a) = maxValue
          · rw [costOf, if_pos (Or.inl hmax)]
            decide
          · have hpen : corridorLane.pen (corridorLane.succ s a).ix
                (corridorLane.succ s a).iy ≠ penaltyObstacle ∧
                7 ≤ entry (corridorLane.pen (corridorLane.succ s a).ix
                  (corridorLane.succ s a).iy) := by
              rw [hsucc.1]
              rcases hsucc.2 with h | h <;> rw [h] <;> decide
            rw [Fin.le_def, costOf_val hmax hpen.1]
            have hseven : (7 : U16).val = 7 := rfl
            omega
        · rw [cost_of_out hin]
          decide

/-- The table of that lane once it is settled. -/
def tollTable : Grid U16 := Grid.ofFn corridorLane.dims toll

theorem corridorLane_cells : corridorLane.allCells.flatMap (fun c => column c.1 c.2) =
    column 0 0 ++ (column 1 0 ++ column 2 0) := rfl

theorem corridorLane_contains {x : Int} (hx : 0 ≤ x ∧ x < 3) {s : Pos} (hs : s ∈ column x 0) :
    corridorLane.dims.Contains s :=
  contains_of_mem_column ⟨hx, by decide⟩ hs

/-- Relaxed from left to right the lane is settled at once. -/
theorem corridorLane_relaxed (f : Pos → U16) (hf : ∀ it, 0 ≤ it ∧ it < 60 → f ⟨0, 0, it⟩ = 0)
    {s : Pos} (hs : corridorLane.dims.Contains s) :
    (relaxAll corridorLane.update gap
      (corridorLane.allCells.flatMap fun c => column c.1 c.2) ⟨f, 0⟩).copy s = toll s := by
  rw [corridorLane_cells, relaxAll_append, relaxAll_append]
  have hgoal := relaxAll_settled (F := corridorLane.update) gap_self (l := column 0 0)
    (r := ⟨f, 0⟩) fun s hs => corridorLane_goal s (mem_column.mp hs).1 (mem_column.mp hs).2.1 f
  rw [hgoal]
  -- a column whose left neighbour is settled becomes settled and leaves that neighbour alone
  have hstep : ∀ (x : Int), x = 1 ∨ x = 2 → ∀ r : Sheet Pos U16 U16,
      (∀ it, 0 ≤ it ∧ it < 60 → r.copy ⟨x - 1, 0, it⟩ = 0) →
      ∀ s ∈ column x 0, (relaxAll corridorLane.update gap (column x 0) r).copy s = toll s := by
    intro x hx r hr
    refine (relaxAll_sets (A := fun g => ∀ it, 0 ≤ it ∧ it < 60 → g ⟨x - 1, 0, it⟩ = 0)
      (T := toll) ?_ hr).2
    intro g hg s hs
    obtain ⟨hsx, hsy, hst⟩ := mem_column.mp hs
    constructor
    · apply corridorLane_update (corridorLane_contains (by omega) hs) (hsx ▸ hx)
      rw [hsx, hsy]
      exact hg s.it hst
    · intro it hit
      rw [Function.update_of_ne, hg it hit]
      intro heq
      rw [← heq] at hsx
      simp only at hsx
      omega
  have hfirst := hstep 1 (Or.inl rfl) ⟨f, 0⟩ hf
  obtain ⟨⟨⟨hx0, hx1⟩, hy0, hy1⟩, ht⟩ := contains_iff.mp hs
  have hy : s.iy = 0 := by
    have hone : (corridorLane.mapY : Int) = 1 := rfl
    omega
  have hthree : (corridorLane.mapX : Int) = 3 := rfl
  have hx : s.ix = 0 ∨ s.ix = 1 ∨ s.ix = 2 := by omega
  have hne : ∀ x, s.ix ≠ x → s ∉ column x 0 := fun x hx hmem => hx (mem_column.mp hmem).1
  rcases hx with hx | hx | hx
  · rw [relaxAll_copy_of_notMem (hne 2 (by omega)), relaxAll_copy_of_notMem (hne 1 (by omega))]
    have heq : s = ⟨0, 0, s.it⟩ := by
      cases s
      simp only at hx hy
      rw [hx, hy]
    have htoll : toll s = 0 := if_neg (by omega)
    rw [htoll, heq]
    exact hf s.it ht
  · rw [relaxAll_copy_of_notMem (hne 2 (by omega))]
    exact hfirst s (mem_column.mpr ⟨hx, hy, ht⟩)
  · apply hstep 2 (Or.inr rfl) _ ?_ s (mem_column.mpr ⟨hx, hy, ht⟩)
    intro it hit
    have hmem : (⟨2 - 1, 0, it⟩ : Pos) ∈ column 1 0 := mem_column.mpr ⟨rfl, rfl, hit⟩
    rw [hfirst _ hmem]
    rfl

/-- One sweep over the lane leaves its settled table. -/
theorem corridorLane_sweep {value : Grid U16} (hdims : value.dims = corridorLane.dims)
    (hgoal : ∀ it, 0 ≤ it ∧ it < 60 → value.get ⟨0, 0, it⟩ = 0) :
    (corridorLane.viBellmanCells corridorLane.allCells value).1 = tollTable := by
  have hshows := Shows.viBellmanCells corridorLane_contract
    (fun c hc => inMap_of_mem_allCells hc) (f := value.get) ⟨hdims, fun _ _ => rfl, rfl⟩
  apply Grid.eq_of_get hshows.dims
  intro s hs
  rw [hshows.dims] at hs
  rw [hshows.get s hs]
  exact (corridorLane_relaxed _ hgoal hs).trans (Grid.get_ofFn toll hs).symm

theorem tollTable_get {s : Pos} (hs : corridorLane.dims.Contains s) : tollTable.get s = toll s :=
  Grid.get_ofFn toll hs

/-- There is nothing to pay from the two cells on the left. -/
theorem tollTable_zero {x it : Int} (hx : 0 ≤ x ∧ x < 2) (hit : 0 ≤ it ∧ it < 60) :
    tollTable.get ⟨x, 0, it⟩ = 0 := by
  have hmem : (⟨x, 0, it⟩ : Pos) ∈ column x 0 := mem_column.mpr ⟨rfl, rfl, hit⟩
  rw [tollTable_get (corridorLane_contains (by omega) hmem)]
  exact if_neg (by simp only; omega)

/-- Each state of the settled table equals its update. -/
theorem corridorLane_fixed {s : Pos} (hs : corridorLane.dims.Contains s) :
    corridorLane.update tollTable.get s = tollTable.get s := by
  obtain ⟨⟨⟨hx0, hx1⟩, hy0, hy1⟩, ht⟩ := contains_iff.mp hs
  have hy : s.iy = 0 := by
    have hone : (corridorLane.mapY : Int) = 1 := rfl
    omega
  have hthree : (corridorLane.mapX : Int) = 3 := rfl
  by_cases hx : s.ix = 0
  · exact corridorLane_goal s hx hy _
  · refine Eq.trans ?_ (tollTable_get hs).symm
    apply corridorLane_update hs (by omega)
    rw [hy]
    exact tollTable_zero (by omega) ht

/-- The settled table is not changed any more. -/
theorem corridorLane_still :
    corridorLane.viBellmanCells corridorLane.allCells tollTable = (tollTable, 0) := by
  apply Prod.ext
  · exact corridorLane_sweep rfl fun it hit => tollTable_zero (by decide) hit
  · have hstart : Shows corridorLane (tollTable, 0) ⟨tollTable.get, 0⟩ :=
      ⟨rfl, fun _ _ => rfl, rfl⟩
    have hshows := Shows.viBellmanCells corridorLane_contract
      (fun c hc => inMap_of_mem_allCells hc) hstart
    refine hshows.delta.trans ?_
    rw [relaxAll_settled gap_self]
    intro s hs
    obtain ⟨c, hc, hs⟩ := List.mem_flatMap.mp hs
    exact corridorLane_fixed (contains_of_mem_column (inMap_of_mem_allCells hc) hs)

/-- The first unit takes the only tile of the lane. -/
theorem corridorLane_cuTileCells : corridorLane.cuTileCells 0 = corridorLane.allCells ∧
    corridorLane.cuTileCells 1 = [] := by
  have hall : corridorLane.allCells = [(0, 0), (1, 0), (2, 0)] := by decide
  have hx : corridorLane.numTilesX = 1 := rfl
  have hy : corridorLane.numTilesY = 1 := rfl
  rw [hall, cuTileCells, cuTileCells, hx, hy]
  decide

theorem viBellmanCells_nil (sc : Scene) (value : Grid U16) :
    sc.viBellmanCells [] value = (value, 0) := rfl

/-- One sweep of the tile kernel over the lane is one of the reference. -/
theorem corridorLane_serial (bram : Fin 2 → TileChip) {value : Grid U16}
    (hdims : value.dims = corridorLane.dims) :
    let u := corridorLane.viBellmanCells corridorLane.allCells value
    let σ := during corridorLane.tilePrograms (serial corridorLane.tilePrograms bram) value
    σ.mem = u.1 ∧ (σ.state 0).globalMax = u.2 ∧ (σ.state 1).globalMax = 0 := by
  have hserial := tile_serial corridorLane_contract bram hdims
  rw [corridorLane_cuTileCells.1, corridorLane_cuTileCells.2] at hserial
  simp only [viBellmanCells_nil] at hserial
  exact hserial

/-- Two sweeps of the reference report a table that the first of them settles. -/
theorem viReferenceRun_settles {sc : Scene} {value settled : Grid U16}
    (hfirst : (sc.viBellmanCells sc.allCells value).1 = settled)
    (hstill : sc.viBellmanCells sc.allCells settled = (settled, 0)) :
    (sc.viReferenceRun 0 2 0 maxValue value).2.2 = 0 ∧
      (sc.viReferenceRun 0 2 0 maxValue value).1 = settled := by
  simp only [viReferenceRun, hfirst, hstill]
  split
  · next hle => exact ⟨Fin.le_zero_iff.mp hle, rfl⟩
  · exact ⟨rfl, rfl⟩

/-- Two launches report a table that the first of them settles. -/
theorem sweepLoop_settles {w h : Nat} (program : Fin 2 → Program w h) (bram : Fin 2 → Chip w h)
    {value settled : Grid U16} (hfirst : (during program (serial program bram) value).mem = settled)
    (hstill : (during program (serial program bram) settled).mem = settled)
    (h0 : ((during program (serial program bram) settled).state 0).globalMax = 0)
    (h1 : ((during program (serial program bram) settled).state 1).globalMax = 0)
    (sweep : Nat) (last : U16) :
    (Fpga.sweepLoop program 0 [serial program bram, serial program bram] sweep last
        value).status = .ok ∧
      (Fpga.sweepLoop program 0 [serial program bram, serial program bram] sweep last
        value).value = settled := by
  simp only [Fpga.sweepLoop, hfirst, hstill, h0, h1, bothDone_serial, if_true, ite_gt_eq_max,
    max_self, le_refl]
  split
  · exact ⟨rfl, rfl⟩
  · exact ⟨rfl, rfl⟩

/-- What a solve of the lane starts from. -/
def blankLane : Grid U16 := blank (allGoals corridorLane)

/-- A launch that serves the units of the tile kernel one after the other. -/
def serialLaunch : Launch tileWH tileHH := serial corridorLane.tilePrograms fun _ => .clear _ _

/-- The reference and the tile kernel settle the lane in their first sweep, report that in
their second, and leave the shortest paths: nothing to pay next to the goal, `7` behind. -/
theorem converged_shortest_lane :
    blankLane.get ⟨2, 0, 0⟩ = maxValue ∧ tollTable.get ⟨2, 0, 0⟩ = 7 ∧
      (corridorLane.viReferenceRun 0 2 0 maxValue blankLane).2.2 = 0 ∧
      (corridorLane.viReferenceRun 0 2 0 maxValue blankLane).1 = tollTable ∧
      (viRunUntilConverged corridorLane 360 6 corridorLane.tilePrograms 0
        [serialLaunch, serialLaunch] blankLane).status = .ok ∧
      (viRunUntilConverged corridorLane 360 6 corridorLane.tilePrograms 0
        [serialLaunch, serialLaunch] blankLane).value = tollTable ∧
      ShortestTable (allGoals corridorLane) tollTable := by
  have hinside : ∀ x it : Int, 0 ≤ x ∧ x < 3 → 0 ≤ it ∧ it < 60 →
      corridorLane.dims.Contains ⟨x, 0, it⟩ := fun x it hx hit =>
    corridorLane_contains hx (mem_column.mpr ⟨rfl, rfl, hit⟩)
  have hfar : blankLane.get ⟨2, 0, 0⟩ = maxValue :=
    blank_get (hinside 2 0 (by decide) (by decide))
  have hseven : tollTable.get ⟨2, 0, 0⟩ = 7 :=
    tollTable_get (hinside 2 0 (by decide) (by decide))
  have hsweep : (corridorLane.viBellmanCells corridorLane.allCells blankLane).1 = tollTable := by
    apply corridorLane_sweep rfl
    intro it hit
    exact blank_get (hinside 0 it (by decide) hit)
  obtain ⟨hzero, htable⟩ := viReferenceRun_settles hsweep corridorLane_still
  have hkernel : (viRunUntilConverged corridorLane 360 6 corridorLane.tilePrograms 0
        [serialLaunch, serialLaunch] blankLane).status = .ok ∧
      (viRunUntilConverged corridorLane 360 6 corridorLane.tilePrograms 0
        [serialLaunch, serialLaunch] blankLane).value = tollTable := by
    have hblank : blankLane.dims = corridorLane.dims := rfl
    have hsettled : tollTable.dims = corridorLane.dims := rfl
    obtain ⟨hmem, _, _⟩ := corridorLane_serial (fun _ => .clear _ _) hblank
    obtain ⟨hstill, h0, h1⟩ := corridorLane_serial (fun _ => .clear _ _) hsettled
    rw [hsweep] at hmem
    rw [corridorLane_still] at hstill h0
    rw [viRunUntilConverged, if_neg (by decide), if_neg (by decide), if_neg (by decide)]
    exact sweepLoop_settles _ _ hmem hstill h0 h1 0 maxValue
  refine ⟨hfar, hseven, hzero, htable, hkernel.1, hkernel.2, ?_⟩
  -- both runs end converged, either one makes the table shortest
  have htable' := htable
  rw [blankLane] at hzero htable' hkernel
  obtain ⟨hreference, htile, _, hunique⟩ :=
    converged_shortest corridorLane_contract (allGoals corridorLane)
  have hshown := htile 360 6 [serialLaunch, serialLaunch] hkernel.1
  rw [hunique _ _ hshown (hreference 2 hzero.le), htable'] at hshown
  exact hshown

end Lane

end Scene

end ValueIteration.Fpga
