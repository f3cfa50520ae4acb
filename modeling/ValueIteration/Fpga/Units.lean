import ValueIteration.Fpga.Stream
import ValueIteration.Fpga.Tile

/-!
# Two compute units

Both units of a kernel work on one value table at the same time; `vi_run_until_converged`
starts them sweep after sweep until neither reports a change above the threshold.
-/

set_option autoImplicit false

namespace ValueIteration.Fpga

open Replica

/-- What a sweep depends on besides the table: what block memory holds when the units are
started, and who makes the next step, word by word. -/
structure Launch (w h : Nat) where
  bram : Fin 2 → Chip w h
  sched : List (Fin 2)

/-- The two units and the table they share. -/
abbrev Units (w h : Nat) := Crew (Fin 2) (Instr Pos U16 (Chip w h)) (Chip w h) (Grid U16)

section Sweeps

variable {w h : Nat}

def start (program : Fin 2 → Program w h) (bram : Fin 2 → Chip w h) (value : Grid U16) :
    Units w h := ⟨value, bram, program⟩

/-- The units after some steps of a sweep. -/
def during (program : Fin 2 → Program w h) (l : Launch w h) (value : Grid U16) : Units w h :=
  Crew.run (Instr.exec ddr) l.sched (start program l.bram value)

/-- Unit 0 first, unit 1 when it is done. -/
def serial (program : Fin 2 → Program w h) (bram : Fin 2 → Chip w h) : Launch w h :=
  ⟨bram, List.replicate (program 0).length 0 ++ List.replicate (program 1).length 1⟩

/-- Both interrupts have come. -/
def bothDone (σ : Units w h) : Bool := (σ.rest 0).isEmpty && (σ.rest 1).isEmpty

theorem finished_of_bothDone {σ : Units w h} (hdone : bothDone σ = true) : σ.Finished := by
  rw [bothDone, Bool.and_eq_true, List.isEmpty_iff, List.isEmpty_iff] at hdone
  intro i
  match i with
  | 0 => exact hdone.1
  | 1 => exact hdone.2

/-- Served one after the other, each unit works as if it were alone. -/
theorem during_serial (program : Fin 2 → Program w h) (bram : Fin 2 → Chip w h)
    (value : Grid U16) :
    let u := Crew.alone (Instr.exec ddr) (program 0) (bram 0, value)
    let v := Crew.alone (Instr.exec ddr) (program 1) (bram 1, u.2)
    (during program (serial program bram) value).mem = v.2 ∧
      (during program (serial program bram) value).state 0 = u.1 ∧
      (during program (serial program bram) value).state 1 = v.1 := by
  intro u v
  have hrun : during program (serial program bram) value =
      ⟨v.2, Function.update (Function.update bram 0 u.1) 1 v.1,
        Function.update (Function.update program 0 []) 1 []⟩ := by
    have hother : (1 : Fin 2) ≠ 0 := by decide
    have hfirst : Crew.run (Instr.exec ddr) (List.replicate (program 0).length 0)
        (start program bram value) =
          ⟨u.2, Function.update bram 0 u.1, Function.update program 0 []⟩ :=
      Crew.run_to_end 0 (program 0) (start program bram value) rfl
    have hstate : Function.update bram 0 u.1 1 = bram 1 := Function.update_of_ne hother _ _
    have hrest : Function.update program 0 [] 1 = program 1 := Function.update_of_ne hother _ _
    have hsecond : Crew.run (Instr.exec ddr) (List.replicate (program 1).length 1)
        (⟨u.2, Function.update bram 0 u.1, Function.update program 0 []⟩ : Units w h) =
          ⟨v.2, Function.update (Function.update bram 0 u.1) 1 v.1,
            Function.update (Function.update program 0 []) 1 []⟩ := by
      rw [Crew.run_to_end 1 (program 1) _ hrest]
      simp only [hstate]
      rfl
    unfold during serial
    rw [Crew.run_append, hfirst, hsecond]
  rw [hrun]
  exact ⟨rfl, rfl, rfl⟩

theorem bothDone_serial (program : Fin 2 → Program w h) (bram : Fin 2 → Chip w h)
    (value : Grid U16) : bothDone (during program (serial program bram) value) = true := by
  have hrest : ∀ i : Fin 2, (during program (serial program bram) value).rest i = [] := by
    intro i
    rw [during, serial, Crew.run_append, Crew.rest_run_replicate]
    match i with
    | 0 =>
      rw [if_neg (by decide), Crew.rest_run_replicate, if_pos rfl]
      exact List.drop_length
    | 1 =>
      rw [if_pos rfl, Crew.rest_run_replicate, if_neg (by decide)]
      exact List.drop_length
  rw [bothDone, hrest 0, hrest 1]
  rfl

inductive Status where
  | ok
  | badArg
  | bufSize
  | irq
  | notConv
  deriving DecidableEq, Repr

/-- `vi_run_stats_t` without the clock, and the table. -/
structure Outcome where
  status : Status
  value : Grid U16
  sweeps : Nat
  finalDelta : U16

/-- The sweep loop of `vi_run_until_converged`, one launch for each sweep it may make. -/
def sweepLoop (program : Fin 2 → Program w h) (threshold : U16) :
    List (Launch w h) → Nat → U16 → Grid U16 → Outcome
  | [], sweep, lastDelta, value => ⟨.notConv, value, sweep, lastDelta⟩
  | l :: ls, sweep, lastDelta, value =>
    let σ := during program l value
    if bothDone σ then
      let d0 := (σ.state 0).globalMax
      let d1 := (σ.state 1).globalMax
      let delta := if d0 > d1 then d0 else d1
      if delta ≤ threshold then ⟨.ok, σ.mem, sweep + 1, delta⟩
      else sweepLoop program threshold ls (sweep + 1) delta σ.mem
    else ⟨.irq, σ.mem, sweep, lastDelta⟩

/-- `vi_run_until_converged`; the number of launches is `max_sweeps`. -/
def viRunUntilConverged (sc : Scene) (valueSize penSize : Nat)
    (program : Fin 2 → Program w h) (threshold : U16) (launches : List (Launch w h))
    (value : Grid U16) : Outcome :=
  if sc.mapX ≤ 0 ∨ sc.mapY ≤ 0 then ⟨.badArg, value, 0, maxValue⟩
  else if sc.mapX * sc.mapY * nTheta * 2 > valueSize then ⟨.bufSize, value, 0, maxValue⟩
  else if sc.mapX * sc.mapY * 2 > penSize then ⟨.bufSize, value, 0, maxValue⟩
  else sweepLoop program threshold launches 0 maxValue value

end Sweeps

namespace Scene

variable (sc : Scene)

/-- The programs the two units of each kernel run. -/
def tilePrograms (cuId : Fin 2) : Program tileWH tileHH :=
  sc.viSweepProgram sc.numTilesX sc.numTilesY cuId

def streamPrograms (cuId : Fin 2) : Program streamBufW windowRows :=
  sc.viSweepStreamProgram cuId

/-- All cells in the order of the loops of `vi_reference_run`. -/
def allCells : List (Int × Int) :=
  (List.range sc.mapY).flatMap fun (y : Nat) => (List.range sc.mapX).map fun (x : Nat) =>
    ((x : Int), (y : Int))

/-- `vi_reference_run`: the table, the number it returns, and the last `max_delta`. -/
def viReferenceRun (threshold : U16) : Nat → Nat → U16 → Grid U16 → Grid U16 × Nat × U16
  | 0, sweep, lastDelta, value => (value, sweep, lastDelta)
  | left + 1, sweep, _, value =>
    let r := sc.viBellmanCells sc.allCells value
    if r.2 ≤ threshold then (r.1, sweep + 1, r.2)
    else viReferenceRun threshold left (sweep + 1) r.2 r.1

/-- A kernel that works in rounds covering the map between its two units. -/
structure Kernel (w h : Nat) where
  program : Fin 2 → Program w h
  rounds : Fin 2 → List (Round Pos)
  follows : ∀ (i : Fin 2) (bram : Chip w h) (f : Pos → U16),
    Follows sc.dims.Contains sc.update gap (fun c r => r.delta = c.globalMax) (program i)
      ((rounds i).flatMap Round.ops) bram ⟨f, 0⟩
  covers : ∀ s, sc.dims.Contains s → ∃ i, s ∈ (rounds i).flatMap Round.relaxed
  contains : ∀ i, ∀ s ∈ (rounds i).flatMap Round.relaxed, sc.dims.Contains s

variable {sc}

def tileKernel (hc : sc.Contract) : sc.Kernel tileWH tileHH where
  program := sc.tilePrograms
  rounds i := (cuTiles sc.numTilesX sc.numTilesY i).map sc.tileRound
  follows i := follows_viSweep hc sc.numTilesX sc.numTilesY i
  covers := by
    intro s hs
    obtain ⟨⟨⟨hx0, hx1⟩, hy0, hy1⟩, ht⟩ := contains_iff.mp hs
    have hnx : sc.numTilesX = (sc.mapX + 31) / 32 := rfl
    have hny : sc.numTilesY = (sc.mapY + 31) / 32 := rfl
    let tx := (s.ix / 32).toNat
    let ty := (s.iy / 32).toNat
    have htx : (tx : Int) = s.ix / 32 := Int.toNat_of_nonneg (by omega)
    have hty : (ty : Int) = s.iy / 32 := Int.toNat_of_nonneg (by omega)
    refine ⟨⟨(tx + ty) % 2, Nat.mod_lt _ (by decide)⟩, ?_⟩
    rw [List.flatMap_map]
    refine List.mem_flatMap.mpr ⟨(tx, ty), ?_, ?_⟩
    · refine List.mem_flatMap.mpr ⟨ty, List.mem_range.mpr (by omega), ?_⟩
      refine List.mem_map.mpr ⟨tx, List.mem_filter.mpr ⟨List.mem_range.mpr (by omega), ?_⟩, rfl⟩
      simp
    · exact mem_tileRound_relaxed.mpr ⟨hs, by simp only; omega, by simp only; omega⟩
  contains := by
    intro i s hs
    rw [List.flatMap_map] at hs
    obtain ⟨t, _, hs⟩ := List.mem_flatMap.mp hs
    exact (mem_tileRound_relaxed.mp hs).1

def streamKernel (hc : sc.Contract) (ht : sc.Translates) :
    sc.Kernel streamBufW windowRows where
  program := sc.streamPrograms
  rounds i := sc.cuRounds i
  follows i := follows_viSweepStream hc ht i
  covers := by
    intro s hs
    obtain ⟨⟨⟨hx0, hx1⟩, _⟩, _⟩ := contains_iff.mp hs
    have hn : sc.numStrips = (sc.mapX + 144) / 145 := rfl
    have hhalf : sc.halfStrips = (sc.numStrips + 1) / 2 := rfl
    by_cases hleft : s.ix / 145 < sc.halfStrips
    · exact ⟨0, mem_cuRounds_relaxed.mpr ⟨hs, mem_cuStrips_left.mpr (by omega)⟩⟩
    · exact ⟨1, mem_cuRounds_relaxed.mpr ⟨hs, (mem_cuStrips_right (by decide)).mpr (by omega)⟩⟩
  contains i s hs := (mem_cuRounds_relaxed.mp hs).1

end Scene

end ValueIteration.Fpga
