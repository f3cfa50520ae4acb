import Mathlib.Data.Fin.Basic
import Mathlib.Data.List.GetD
import Mathlib.Order.Fin.Basic
import ValueIteration.Lib.Grid
import ValueIteration.Lib.Replica

/-!
# The 16-bit cell update

`vi_bellman_cell` and `cost_of`, on flat tables of `uint16_t`, and the update of one state
as a function of the whole value table.
-/

set_option autoImplicit false

namespace ValueIteration.Fpga

abbrev U16 := Fin 65536

instance instNeZeroU16 : NeZero 65536 := ⟨Nat.succ_ne_zero _⟩

def nActions : Nat := 6
def nTheta : Nat := 60
def haloMax : Int := 6

def maxValue : U16 := 65535
def penaltyObstacle : U16 := 65535
def penaltyGoal : U16 := 65534

/-- `cost_of`: the saturating sum; the goal penalty counts as `0`. -/
def costOf (nv npRaw : U16) : U16 :=
  if nv = maxValue ∨ npRaw = penaltyObstacle then maxValue
  else
    let np : U16 := if npRaw = penaltyGoal then 0 else npRaw
    let sum := nv.val + np.val
    if maxValue.val ≤ sum then maxValue - 1 else Fin.ofNat 65536 sum

/-- Map, penalty table and the packed transition table. -/
structure Scene where
  mapX : Nat
  mapY : Nat
  penalty : Grid U16
  penaltyDims : penalty.dims = ⟨mapX, mapY, 1⟩
  trans : List (BitVec 32)

/-- `nt` of the host code: one step of wrapping in either direction. -/
def nextTheta (it : Int) (dit : Int) : Int :=
  let nt := it + dit
  let nt := if nt < 0 then nt + 60 else nt
  if nt ≥ 60 then nt - 60 else nt

namespace Scene

variable (sc : Scene)

/-- Shape of the value table. -/
def dims : Dims := ⟨sc.mapX, sc.mapY, nTheta⟩

def transWord (a it : Nat) : BitVec 32 := sc.trans.getD (a * nTheta + it) 0

def dix (a it : Nat) : Int := ((sc.transWord a it).extractLsb' 0 8).toInt
def diy (a it : Nat) : Int := ((sc.transWord a it).extractLsb' 8 8).toInt
def dit (a it : Nat) : Int := ((sc.transWord a it).extractLsb' 16 8).toInt

def pen (x y : Int) : U16 := sc.penalty.get ⟨x, y, 0⟩

def InMap (x y : Int) : Prop := (0 ≤ x ∧ x < sc.mapX) ∧ 0 ≤ y ∧ y < sc.mapY

instance (x y : Int) : Decidable (sc.InMap x y) := by unfold InMap; infer_instance

/-- The body of the action loop of `vi_bellman_cell`. -/
def tryAction (value : Grid U16) (x y : Int) (it : Nat) (best : U16) (a : Nat) : U16 :=
  let nx := x + sc.dix a it
  let ny := y + sc.diy a it
  let nt := nextTheta it (sc.dit a it)
  if nx < 0 ∨ nx ≥ sc.mapX ∨ ny < 0 ∨ ny ≥ sc.mapY then best
  else
    let nv := value.get ⟨nx, ny, nt⟩
    let npRaw := sc.pen nx ny
    if nv = maxValue ∨ npRaw = penaltyObstacle then best
    else
      let np : U16 := if npRaw = penaltyGoal then 0 else npRaw
      let s := nv.val + np.val
      let c : U16 := if 65535 ≤ s then 65534 else Fin.ofNat 65536 s
      if c < best then c else best

/-- The body of the heading loop of `vi_bellman_cell`. -/
def updateHeading (x y : Int) (r : Grid U16 × U16) (it : Nat) : Grid U16 × U16 :=
  let old := r.1.get ⟨x, y, it⟩
  let best := (List.range nActions).foldl (sc.tryAction r.1 x y it) maxValue
  let d := if best > old then best - old else old - best
  (r.1.set ⟨x, y, it⟩ best, if d > r.2 then d else r.2)

/-- `vi_bellman_cell`: the cell at all headings, in place, and its largest change. -/
def viBellmanCell (value : Grid U16) (x y : Int) : Grid U16 × U16 :=
  if sc.pen x y ≥ penaltyGoal then (value, 0)
  else (List.range nTheta).foldl (sc.updateHeading x y) (value, 0)

/-- `vi_bellman_cell` at one cell after the other, with the largest change of all. -/
def viBellmanCells (cells : List (Int × Int)) (value : Grid U16) : Grid U16 × U16 :=
  cells.foldl (fun r c =>
    let q := sc.viBellmanCell r.1 c.1 c.2
    (q.1, if q.2 > r.2 then q.2 else r.2)) (value, 0)

/-! ## What the kernels are promised -/

/-- Heading change of the six actions. -/
def turn (a : Nat) : Int := [0, 0, 3, -3, 3, -3].getD a 0

/-- The contract of both kernels: moves stay within the halo, the heading the host code
computes is the one the kernels have wired in, and rotations do not move. -/
structure Contract : Prop where
  dix_le : ∀ a < nActions, ∀ it < nTheta, -haloMax ≤ sc.dix a it ∧ sc.dix a it ≤ haloMax
  diy_le : ∀ a < nActions, ∀ it < nTheta, -haloMax ≤ sc.diy a it ∧ sc.diy a it ≤ haloMax
  heading : ∀ a < nActions, ∀ it < nTheta,
    nextTheta it (sc.dit a it) = ((it : Int) + turn a) % 60
  rotation : ∀ a < nActions, a = 2 ∨ a = 3 → ∀ it < nTheta, sc.dix a it = 0 ∧ sc.diy a it = 0

/-- What the stream kernel needs besides: the other actions leave the cell. -/
def Translates : Prop :=
  ∀ a < nActions, ¬ (a = 2 ∨ a = 3) → ∀ it < nTheta, sc.dix a it ≠ 0 ∨ sc.diy a it ≠ 0

instance : Decidable sc.Translates := by unfold Translates; infer_instance

instance : Decidable sc.Contract :=
  decidable_of_iff
    ((∀ a < nActions, ∀ it < nTheta, -haloMax ≤ sc.dix a it ∧ sc.dix a it ≤ haloMax) ∧
      (∀ a < nActions, ∀ it < nTheta, -haloMax ≤ sc.diy a it ∧ sc.diy a it ≤ haloMax) ∧
      (∀ a < nActions, ∀ it < nTheta,
        nextTheta it (sc.dit a it) = ((it : Int) + turn a) % 60) ∧
      ∀ a < nActions, a = 2 ∨ a = 3 → ∀ it < nTheta, sc.dix a it = 0 ∧ sc.diy a it = 0)
    ⟨fun h => ⟨h.1, h.2.1, h.2.2.1, h.2.2.2⟩, fun h => ⟨h.1, h.2, h.3, h.4⟩⟩

theorem getD_flatMap_replicate {α : Type} {n i : Nat} (hi : i < n) (d : α) (l : List α) :
    ∀ a, (l.flatMap (List.replicate n)).getD (a * n + i) d = l.getD a d := by
  induction l with
  | nil => intro a; simp
  | cons x l ih =>
    intro a
    rw [List.flatMap_cons]
    cases a with
    | zero =>
      rw [Nat.zero_mul, Nat.zero_add, List.getD_append _ _ _ _ (by simpa using hi)]
      simp [hi]
    | succ a =>
      have hge : (List.replicate n x).length ≤ (a + 1) * n + i := by
        rw [List.length_replicate, Nat.succ_mul]
        omega
      rw [List.getD_append_right _ _ _ _ hge, List.length_replicate,
        show (a + 1) * n + i - n = a * n + i by rw [Nat.succ_mul]; omega, ih,
        List.getD_cons_succ]

def laneWords : List (BitVec 32) := [0x000001, 0x0000FF, 0x030000, 0xFD0000, 0x030001, 0xFD0001]

/-- One row of cells; the moves go one cell right or, backwards, one cell left. -/
def lane (ps : List U16) : Scene where
  mapX := ps.length
  mapY := 1
  penalty := Grid.ofFn ⟨ps.length, 1, 1⟩ fun p => ps.getD p.ix.toNat 0
  penaltyDims := rfl
  trans := laneWords.flatMap (List.replicate nTheta)

theorem lane_transWord (ps : List U16) {a it : Nat} (hit : it < nTheta) :
    (lane ps).transWord a it = laneWords.getD a 0 := getD_flatMap_replicate hit 0 laneWords a

section LaneMoves

variable (ps : List U16) {a it : Nat} (ha : a < nActions) (hit : it < nTheta)
include ha hit

theorem lane_dix : (lane ps).dix a it = [1, -1, 0, 0, 1, 1].getD a 0 := by
  rw [dix, lane_transWord ps hit]
  revert a
  decide

theorem lane_diy : (lane ps).diy a it = 0 := by
  rw [diy, lane_transWord ps hit]
  revert a
  decide

theorem lane_dit : (lane ps).dit a it = turn a := by
  rw [dit, lane_transWord ps hit]
  revert a
  decide

end LaneMoves

theorem lane_contract (ps : List U16) : (lane ps).Contract := by
  refine ⟨?_, ?_, ?_, ?_⟩
  · intro a ha it hit
    rw [lane_dix ps ha hit]
    revert a
    decide
  · intro a ha it hit
    rw [lane_diy ps ha hit]
    decide
  · intro a ha it hit
    rw [lane_dit ps ha hit]
    revert it
    revert a
    decide +kernel
  · intro a ha hrot it hit
    rw [lane_dix ps ha hit, lane_diy ps ha hit]
    revert a
    decide

theorem lane_translates (ps : List U16) : (lane ps).Translates := by
  intro a ha hmove it hit
  rw [dix, diy, lane_transWord ps hit]
  revert a
  decide

/-! ## The update as a function of the table -/

/-- Where action `a` leads. -/
def succ (s : Pos) (a : Nat) : Pos :=
  ⟨s.ix + sc.dix a s.it.toNat, s.iy + sc.diy a s.it.toNat, nextTheta s.it (sc.dit a s.it.toNat)⟩

/-- The cost of action `a`; `maxValue` when it leaves the map. -/
def cost (f : Pos → U16) (s : Pos) (a : Nat) : U16 :=
  let n := sc.succ s a
  if sc.InMap n.ix n.iy then costOf (f n) (sc.pen n.ix n.iy) else maxValue

def best (f : Pos → U16) (s : Pos) : U16 :=
  (List.range nActions).foldl (fun b a => min b (sc.cost f s a)) maxValue

/-- The value a state gets from a table; obstacle and goal cells keep theirs. -/
def update (f : Pos → U16) (s : Pos) : U16 :=
  if sc.pen s.ix s.iy ≥ penaltyGoal then f s else sc.best f s

end Scene

/-- The change of a value, `d` of the code. -/
def gap (old new : U16) : U16 := if new > old then new - old else old - new

end ValueIteration.Fpga
