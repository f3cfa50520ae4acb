import ValueIteration.Lib.Transition
import ValueIteration.Planner.Runs

/-!
# The tile queue on its own

A repair of any map, interior and halo, under the operations that touch its queue. In
every state they lead to, a tile is marked exactly while it waits and waits once, the
interiors divide the map among the tiles, and queueing a rectangle reaches every tile with
a cell within the halo of it.
-/

set_option autoImplicit false

namespace ValueIteration

open Transition

namespace Repair

/-- What `new_repair` makes for a map of `w` by `h` cells. -/
structure Fresh (r : Repair) (w h : Nat) : Prop where
  interior : 0 < r.interior
  halo : 0 ≤ r.halo
  tnx : r.tnx = max ((w + r.interior - 1) / r.interior) 1
  tny : r.tny = max ((h + r.interior - 1) / r.interior) 1
  queued : r.queued = List.replicate (r.tnx * r.tny).toNat false
  queue : r.queue = []

/-- The operations on the queue. A pop also hydrates the tile's field. -/
inductive QueueOp
  | around (rect : Int × Int × Int × Int)
  | all
  | settle
  | clear
  | pop (vi : ValueIterator)

def queueStep (r : Repair) : QueueOp → Option Repair
  | .around b => some (r.enqueueAround b)
  | .all => some r.enqueueAll
  | .settle => some r.settle
  | .clear => some r.clear
  | .pop vi =>
    match r.queue with
    | [] => none
    | t :: queue => some { r with
        vi := vi
        queue := queue
        queued := r.queued.set t false
        visits := r.visits + 1 }

theorem newRepair_fresh {K : Type} [Field K] [LinearOrder K] [FloorRing K] {build : BuildParams K} {reach : Int} {r : Repair}
    (h : newRepair build reach = some r) : r.Fresh build.grid.width build.grid.height := by
  unfold newRepair at h
  simp only at h
  split at h
  · cases h
  · cases h
    refine ⟨?_, ?_, rfl, rfl, rfl, rfl⟩ <;> simp only <;> omega

/-- The tile of a job is popped as here. -/
theorem draftTile_pop {K : Type} [Field K] [LinearOrder K] [FloorRing K] {core : PlannerCore K}
    {r : Repair} (hr : core.repair = some r) {d : Draft} (hd : core.draftTile.2 = some d) :
    core.draftTile.1.repair = r.queueStep (.pop d.vi) := by
  unfold PlannerCore.draftTile at hd ⊢
  simp only [hr] at hd ⊢
  cases hq : r.queue with
  | nil =>
    simp only [hq] at hd
    cases hd
  | cons t queue =>
    simp only [hq] at hd ⊢
    simp only [queueStep, hq]
    split at hd
    · cases hd
      rfl
    · cases hd

variable {r r' : Repair} {w h : Nat}

theorem Fresh.fits (hr : r.Fresh w h) : r.Fits := by
  refine ⟨?_, ?_, ?_⟩
  · intro t ht
    have hfalse : r.queued.getD t true = false := by
      rw [hr.queued, List.length_replicate] at ht
      rw [hr.queued, List.getD_eq_getElem?_getD, List.getElem?_replicate, if_pos ht,
        Option.getD_some]
    rw [hfalse, hr.queue]
    simp
  · rw [hr.queue]
    exact fun t ht => absurd ht List.not_mem_nil
  · rw [hr.queue]
    exact List.nodup_nil

/-- Enough tiles to cover `n` cells. -/
theorem le_ceil_mul {n : Nat} {k : Int} (hk : 0 < k) :
    (n : Int) ≤ max ((n + k - 1) / k) 1 * k := by
  have hlt := Int.lt_ediv_add_one_mul_self (n + k - 1) hk
  have hmul : (n + k - 1) / k * k ≤ max ((n + k - 1) / k) 1 * k :=
    Int.mul_le_mul_of_nonneg_right (le_max_left _ _) hk.le
  rw [Int.add_mul, Int.one_mul] at hlt
  omega

theorem Fresh.tiles (hr : r.Fresh w h) : r.Tiles w h where
  interior := hr.interior
  halo := hr.halo
  tilesX := by
    rw [hr.tnx]
    exact ⟨lt_of_lt_of_le Int.zero_lt_one (le_max_right _ _), le_ceil_mul hr.interior⟩
  tilesY := by
    rw [hr.tny]
    exact ⟨lt_of_lt_of_le Int.zero_lt_one (le_max_right _ _), le_ceil_mul hr.interior⟩
  queued := by
    rw [hr.queued, List.length_replicate]

/-- What the operations need: the queue fits its flags and the tiles cover the map. -/
structure Kept (r : Repair) (w h : Nat) : Prop where
  fits : r.Fits
  tiles : r.Tiles w h

theorem Tiles.of_grid (hs : r.Tiles w h) (hf : r'.frame.2 = r.frame.2) : r'.Tiles w h := by
  simp only [Repair.frame, Prod.mk.injEq] at hf
  obtain ⟨hint, hhalo, htnx, htny, hlen⟩ := hf
  refine ⟨?_, ?_, ?_, ?_, ?_⟩
  · rw [hint]
    exact hs.interior
  · rw [hhalo]
    exact hs.halo
  · rw [htnx, hint]
    exact hs.tilesX
  · rw [htny, hint]
    exact hs.tilesY
  · rw [hlen, htnx, htny]
    exact hs.queued

/-- Step lemma: every operation on the queue keeps queue, flags and tiles in order. -/
theorem Kept.step (hk : r.Kept w h) (op : QueueOp) (hstep : r.queueStep op = some r') :
    r'.Kept w h := by
  cases op with
  | around b =>
    cases hstep
    refine ⟨(Fits.foldl_push _ hk.fits).1, hk.tiles.of_grid ?_⟩
    rw [Repair.frame_enqueueAround]
  | all =>
    cases hstep
    refine ⟨(Fits.foldl_push _ hk.fits).1, hk.tiles.of_grid ?_⟩
    rw [Repair.frame_enqueueAll]
  | settle =>
    cases hstep
    exact ⟨⟨hk.fits.marked, hk.fits.within, hk.fits.nodup⟩, hk.tiles.of_grid rfl⟩
  | clear =>
    cases hstep
    refine ⟨fits_clear r, hk.tiles.of_grid ?_⟩
    rw [Repair.frame_clear]
  | pop vi =>
    cases hq : r.queue with
    | nil =>
      simp only [queueStep, hq] at hstep
      cases hstep
    | cons t queue =>
      simp only [queueStep, hq] at hstep
      cases hstep
      have hpop := PlannerCore.fits_pop hk.fits hq (r.visits + 1)
      refine ⟨⟨hpop.marked, hpop.within, hpop.nodup⟩, hk.tiles.of_grid ?_⟩
      simp only [Repair.frame, List.length_set]

theorem Kept.run (hr : r.Fresh w h) (hrun : Run queueStep r r') : r'.Kept w h :=
  hrun.invariant (I := fun r => r.Kept w h) ⟨hr.fits, hr.tiles⟩
    fun _ op _ hk _ hstep => Kept.step hk op hstep

/-- Marks and queue agree, and the interiors divide the map. -/
structure Tracked (r : Repair) (w h : Nat) : Prop where
  count : ∀ t < (r.tnx * r.tny).toNat, r.queue.count t = if r.queued.getD t false then 1 else 0
  within : ∀ t ∈ r.queue, t < (r.tnx * r.tny).toNat
  onMap : ∀ t < (r.tnx * r.tny).toNat, ∀ c, InRect (r.interiorOf t w h) c →
    (0 ≤ c.1 ∧ c.1 < w) ∧ 0 ≤ c.2 ∧ c.2 < h
  partition : ∀ c : Cell, (0 ≤ c.1 ∧ c.1 < w) → (0 ≤ c.2 ∧ c.2 < h) →
    ∃! t, t < (r.tnx * r.tny).toNat ∧ InRect (r.interiorOf t w h) c

theorem Kept.tracked (hk : r.Kept w h) : r.Tracked w h := by
  have hlen := hk.tiles.queued
  refine ⟨fun t ht => ?_, fun t ht => ?_, fun t ht c hc => ?_, fun c hx hy => ?_⟩
  · rw [← hlen] at ht
    have hflag : r.queued.getD t false = r.queued.getD t true := by
      rw [List.getD_eq_getElem?_getD, List.getD_eq_getElem?_getD, List.getElem?_eq_getElem ht,
        Option.getD_some, Option.getD_some]
    rw [hk.fits.nodup.count, hflag]
    simp only [hk.fits.marked t ht]
  · rw [← hlen]
    exact hk.fits.within t ht
  · rw [← hlen] at ht
    exact ((inRect_interiorOf hk.tiles ht).mp hc).1
  · have hlt := tileOf_lt hk.tiles hx hy
    refine ⟨r.tileOf c, ⟨by rwa [← hlen], (inRect_interiorOf hk.tiles hlt).mpr ⟨⟨hx, hy⟩, rfl⟩⟩, ?_⟩
    intro t ⟨ht, hc⟩
    rw [← hlen] at ht
    exact ((inRect_interiorOf hk.tiles ht).mp hc).2.symm

/-- Every tile with a cell within `reach` of the rectangle waits afterwards. -/
theorem Kept.covers (hk : r.Kept w h) {reach : Nat} (hreach : (reach : Int) ≤ r.halo)
    {b : Int × Int × Int × Int} {t : Nat} (ht : t < (r.tnx * r.tny).toNat) {n c : Cell}
    (hn : InRect b n) (hc : InRect (r.interiorOf t w h) c) (hnear : Near reach n c) :
    t ∈ (r.enqueueAround b).queue := by
  rw [← hk.tiles.queued] at ht
  obtain ⟨⟨hx, hy⟩, htile⟩ := (inRect_interiorOf hk.tiles ht).mp hc
  have hqueued := (hk.fits.enqueueAround hk.tiles hreach b).2.2 n c hn hx hy hnear
  have hsame : (r.enqueueAround b).tileOf c = r.tileOf c := by
    have hframe := r.frame_enqueueAround b
    simp only [Repair.frame, Prod.mk.injEq] at hframe
    unfold tileOf
    rw [hframe.2.1, hframe.2.2.2.1]
  rwa [hsame, htile] at hqueued

end Repair

/-- In every reachable state marks and queue agree and the interiors divide the map, and
queueing a rectangle queues every tile with a cell within the halo of it, so every tile with
a cell from which a transition that the halo covers leads into it. -/
theorem repair_coverage {w h : Nat} {r₀ r : Repair} (hfresh : r₀.Fresh w h)
    (hrun : Run Repair.queueStep r₀ r) :
    r.Tracked w h ∧ ∀ b : Int × Int × Int × Int, ∀ t < (r.tnx * r.tny).toNat, ∀ c : Cell,
      InRect (r.interiorOf t w h) c →
        (∀ n, InRect b n → Near r.halo.toNat n c → t ∈ (r.enqueueAround b).queue) ∧
        ∀ actions : List Action, (transitionReach actions : Int) ≤ r.halo → ∀ a ∈ actions,
          ∀ row ∈ a.stateTransitions, ∀ tr ∈ row, InRect b (c.1 + tr.dix, c.2 + tr.diy) →
            t ∈ (r.enqueueAround b).queue := by
  have hk := Repair.Kept.run hfresh hrun
  refine ⟨hk.tracked, fun b t ht c hc => ⟨fun n hn hnear => ?_, ?_⟩⟩
  · have hhalo := hk.tiles.halo
    exact hk.covers (by omega) ht hn hc hnear
  · intro actions hreach a ha row hrow tr htr hin
    exact hk.covers hreach ht hin hc (near_of_mem ha hrow htr c)

/-- Five by three cells under tiles of two by two, with a halo of one. -/
def raggedRepair : Repair where
  vi := besideGoal
  interior := 2
  halo := 1
  tnx := 3
  tny := 2
  queued := List.replicate 6 false
  queue := []
  visits := 0
  lastVisits := 0

theorem raggedRepair_fresh : raggedRepair.Fresh 5 3 :=
  ⟨by decide, by decide, by decide, by decide, rfl, rfl⟩

/-- The first two tiles are popped, then a cell beside the second changes: it waits again. -/
theorem raggedRepair_coverage : ∃ r, Run Repair.queueStep raggedRepair r ∧
    r.queue = [2, 3, 4, 5] ∧ r.Tracked 5 3 ∧ 1 ∈ (r.enqueueAround (1, 1, 1, 1)).queue := by
  have hexec : exec Repair.queueStep (fun _ _ => true) raggedRepair
      [.all, .pop besideGoal, .pop besideGoal] = some _ := rfl
  have hrun := (guardedRun_of_exec hexec).run
  obtain ⟨htracked, hcovers⟩ := repair_coverage raggedRepair_fresh hrun
  refine ⟨_, hrun, rfl, htracked, (hcovers (1, 1, 1, 1) 1 (by decide) (2, 0) ?_).1 (1, 1) ?_ ?_⟩
  · unfold InRect
    decide
  · unfold InRect
    decide
  · unfold Near
    decide

/-- The repair of every reachable planner is kept in order. -/
theorem Fleet.Orderly.repair_kept {K : Type} [Field K] [LinearOrder K] [FloorRing K]
    {fleet : Fleet K} (ho : fleet.Orderly) {r : Repair} (hr : fleet.core.repair = some r) :
    r.Kept fleet.core.build.grid.width fleet.core.build.grid.height :=
  ⟨ho.core.fits.repair r hr, (ho.core.shaped.repair r hr).2.tiles⟩

end ValueIteration
