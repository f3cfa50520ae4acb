import ValueIteration.Clamped
import ValueIteration.Displacement
import ValueIteration.Lib.Async

/-!
# The padded grid and the per-cell evaluation on it

The parallel solvers copy the map into a grid widened by the displacement on every
side and turn transitions into flat offsets, so that an outcome off the map reads a
padding cell. They differ only in the word a cell holds: `Padded` keeps the value and
the penalty side by side, `Fused` their sum, with a sentinel for cells that are
unreached or not free. `CellModel` is that difference.
-/

set_option autoImplicit false

namespace ValueIteration

open Async

namespace ValueIterator

variable (vi : ValueIterator)

def padDims : Dims := ⟨vi.dims.nx + 2 * vi.mx, vi.dims.ny + 2 * vi.my, vi.dims.nt⟩

/-- `row_stride = nt * nx_pad`. -/
def rowStride : Int := vi.dims.nt * vi.padDims.nx

/-- `pad_col`: the flat index of heading zero of a cell. -/
def padCol (ix iy : Int) : Int := (ix + vi.mx) * vi.dims.nt + (iy + vi.my) * vi.rowStride

def padIdx (p : Pos) : Int := vi.padCol p.ix p.iy + p.it

/-- The offset of an outcome from the column of its source. -/
def padOffset (tr : StateTransition) : Int :=
  tr.dix * vi.dims.nt + tr.diy * vi.rowStride + (tr.dit + vi.dims.nt).tmod vi.dims.nt

/-- `build_precomp`: offsets and probabilities for every action and source heading. -/
def buildPrecomp : List (List (List (Int × Nat))) :=
  vi.actions.map fun a => (List.range vi.dims.nt).map fun (it : Nat) =>
    (a.row it).map fun tr => (vi.padOffset tr, tr.prob)

/-- A padded array: `f` of the state inside the map, `default` on the padding. -/
def padFill {α : Type} (padding : α) (f : State → α) : Grid α :=
  Grid.ofFn vi.padDims fun q =>
    if vi.dims.Contains ⟨q.ix - vi.mx, q.iy - vi.my, q.it⟩
    then f (vi.stateAt ⟨q.ix - vi.mx, q.iy - vi.my, q.it⟩) else padding

end ValueIterator

/-- `hot = [total_cost, penalty +ʷ local_penalty]`; padding is neither free nor final. -/
structure Padded where
  hot : Grid (Nat × Nat)
  free : Grid Bool
  finals : Grid Bool

def Padded.build (vi : ValueIterator) : Padded where
  hot := vi.padFill (maxCost, 0) fun s => (s.totalCost, s.pen)
  free := vi.padFill false (·.free)
  finals := vi.padFill false (·.finalState)

/-- `cp = total_cost +ʷ pen`, `UNREACHED` where not free or not reached. -/
structure Fused where
  cp : Grid Nat
  pen : Grid Nat
  evalOk : Grid Bool

def Fused.buildDirect (vi : ValueIterator) : Fused where
  cp := vi.padFill unreached fun s =>
    if s.free && s.totalCost != maxCost then wrappingAdd s.totalCost s.pen else unreached
  pen := vi.padFill 0 (·.pen)
  evalOk := vi.padFill false (·.evaluable)

/-- How the words of a padded array are read and written. -/
structure CellModel where
  /-- cells that are not evaluated -/
  skip : Int → Bool
  /-- the value a word stands for, the own value before an update included -/
  before : Int → Nat → Nat
  /-- the word stored for a new value -/
  after : Int → Nat → Nat
  /-- neighbours that give `MAX_COST` without being read -/
  blocked : Int → Bool
  /-- a neighbour's word as value plus penalty, `none` where it gives `MAX_COST` -/
  weigh : Int → Nat → Option Nat

def Padded.cells (m : Padded) : CellModel where
  skip i := !m.free.getFlat i || m.finals.getFlat i
  before _ h := h
  after _ v := v
  blocked i := !m.free.getFlat i
  weigh i h := if h == maxCost then none else some (wrappingAdd h (m.hot.getFlat i).2)

def Fused.cells (f : Fused) : CellModel where
  skip i := !f.evalOk.getFlat i
  before i h := if h == unreached then maxCost else wrappingSub h (f.pen.getFlat i)
  after i v := wrappingAdd v (f.pen.getFlat i)
  blocked _ := false
  weigh _ h := if h == unreached then none else some h

namespace CellModel

variable (m : CellModel)

/-- `action_cost_pad` and `action_cost_fused`: outcomes in order, `MAX_COST` at the
first one that is not free or not reached. -/
def actionCost (colBase : Int) : List (Int × Nat) → Nat → Prog Int Nat Nat
  | [], cost => .ret (cost >>> probBaseBit)
  | bucket :: rest, cost =>
    let n := colBase + bucket.1
    if m.blocked n then .ret maxCost
    else .load n fun h =>
      match m.weigh n h with
      | none => .ret maxCost
      | some v => actionCost colBase rest (wrappingAdd cost (wrappingMul v bucket.2))

/-- The running minimum over the actions. -/
def minCost : List (Prog Int Nat Nat) → Nat → Prog Int Nat Nat
  | [], best => .ret best
  | p :: ps, best => p.bind fun c => minCost ps (if c < best then c else best)

/-- The rows of all actions for one heading. -/
def rows (precomp : List (List (List (Int × Nat)))) (it : Nat) : List (List (Int × Nat)) :=
  precomp.map fun perTheta => perTheta.getD it []

def thetaCost (precomp : List (List (List (Int × Nat)))) (padCol : Int) (it : Nat) :
    Prog Int Nat Nat :=
  minCost ((rows precomp it).map fun row => m.actionCost padCol row 0) maxCost

/-- One heading of a cell: the value moved to, if it moved. -/
def evalTheta (precomp : List (List (List (Int × Nat)))) (padCol : Int) (it : Nat) :
    Prog Int Nat (Option Nat) :=
  .load (padCol + it) fun h =>
    (m.thetaCost precomp padCol it).bind fun v =>
      if v ≠ m.before (padCol + it) h
      then .store (padCol + it) (m.after (padCol + it) v) (.ret (some v)) else .ret none

/-- The headings of a cell in order; the result lists the moves. -/
def evalThetas (precomp : List (List (List (Int × Nat)))) (padCol : Int) :
    List Nat → Prog Int Nat (List (Nat × Nat))
  | [] => .ret []
  | it :: its =>
    if m.skip (padCol + it) then evalThetas precomp padCol its
    else (m.evalTheta precomp padCol it).bind fun moved =>
      (evalThetas precomp padCol its).bind fun moves =>
        .ret (match moved with
          | none => moves
          | some v => (it, v) :: moves)

/-- Value and first minimising action on a memory that stands still, as
`final_policy_parallel` computes them. -/
def argmin (precomp : List (List (List (Int × Nat)))) (mem : Int → Nat) (padCol : Int)
    (it : Nat) : Nat × Option Nat :=
  Argmin.argminBelow maxCost ((rows precomp it).map fun row => (m.actionCost padCol row 0).peek mem)

end CellModel

namespace ValueIterator

variable (vi : ValueIterator)

/-- The result of `final_policy_parallel` at one state: `None` where `skip` says so. -/
def finalPolicy (m : CellModel) (skip : Int → Bool) (mem : Int → Nat) (p : Pos) : Option Nat :=
  if skip (vi.padIdx p) then none
  else (m.argmin vi.buildPrecomp mem (vi.padCol p.ix p.iy) p.it.toNat).2

/-- `write_back`: values from the padded array, actions from the policy pass. -/
def writeBack (m : CellModel) (mem : Int → Nat) (opt : Pos → Option Nat) : ValueIterator :=
  vi.withField fun p => (m.before (vi.padIdx p) (mem (vi.padIdx p)), opt p)

end ValueIterator

section Geometry
variable {vi : ValueIterator}

open ValueIterator

theorem padIdx_eq_flat (p : Pos) :
    vi.padIdx p = vi.padDims.flat ⟨p.ix + vi.mx, p.iy + vi.my, p.it⟩ := by
  simp only [padIdx, padCol, rowStride, Dims.flat, padDims]
  ring

/-- A position that lies on the padded grid. -/
def OnPad (vi : ValueIterator) (p : Pos) : Prop :=
  vi.padDims.Contains ⟨p.ix + vi.mx, p.iy + vi.my, p.it⟩

theorem onPad_of_contains {p : Pos} (hp : vi.dims.Contains p) : OnPad vi p := by
  obtain ⟨⟨hx0, hx⟩, ⟨hy0, hy⟩, ht⟩ := hp
  refine ⟨⟨?_, ?_⟩, ⟨?_, ?_⟩, ht⟩ <;> simp only [padDims, Nat.cast_add, Nat.cast_mul] <;> omega

theorem padIdx_injective {p q : Pos} (hp : OnPad vi p) (hq : OnPad vi q)
    (h : vi.padIdx p = vi.padIdx q) : p = q := by
  rw [padIdx_eq_flat, padIdx_eq_flat] at h
  have heq := Dims.flat_injective hp hq h
  obtain ⟨px, py, pt⟩ := p
  obtain ⟨qx, qy, qt⟩ := q
  simp only [Pos.mk.injEq] at heq ⊢
  omega

theorem padFill_getFlat {α : Type} [Inhabited α] (padding : α) (f : State → α) {p : Pos}
    (hp : OnPad vi p) : (vi.padFill padding f).getFlat (vi.padIdx p) =
      if vi.dims.Contains p then f (vi.stateAt p) else padding := by
  have hget := Grid.get_ofFn (d := vi.padDims) (fun q =>
    if vi.dims.Contains ⟨q.ix - vi.mx, q.iy - vi.my, q.it⟩
    then f (vi.stateAt ⟨q.ix - vi.mx, q.iy - vi.my, q.it⟩) else padding) hp
  simp only [Int.add_sub_cancel] at hget
  rw [padIdx_eq_flat]
  exact hget

/-- The position an outcome reads, on the map or off it. -/
theorem padCol_add_padOffset (s : Pos) (tr : StateTransition) :
    vi.padCol s.ix s.iy + vi.padOffset tr = vi.padIdx (vi.outcomePos s tr) := by
  simp only [padIdx, padCol, padOffset, outcomePos]
  ring

theorem outcome_onPad {a : Action} (ha : a ∈ vi.actions) {s : Pos} (hs : vi.dims.Contains s)
    {tr : StateTransition} (htr : tr ∈ a.row s.it) : OnPad vi (vi.outcomePos s tr) := by
  obtain ⟨hx, hy, _⟩ := displacement_bounds (mem_transitions ha hs htr)
  have hmem := List.mem_of_getElem? (row_mem ha hs)
  have hdit := (((vi.wellFormed a ha).2 _ hmem).1 tr htr).2
  obtain ⟨⟨hx0, hx1⟩, ⟨hy0, hy1⟩, ht0, ht1⟩ := hs
  have hnt : 0 < vi.dims.nt := by omega
  simp only at hx hy
  refine ⟨⟨?_, ?_⟩, ⟨?_, ?_⟩, tmod_add_contains hnt hdit⟩ <;>
    simp only [padDims, outcomePos, Nat.cast_add, Nat.cast_mul] <;> omega

theorem rows_buildPrecomp {s : Pos} (hs : vi.dims.Contains s) :
    CellModel.rows vi.buildPrecomp s.it.toNat =
      vi.actions.map fun a => (a.row s.it).map fun tr => (vi.padOffset tr, tr.prob) := by
  obtain ⟨_, _, ht0, ht1⟩ := hs
  have hlt : s.it.toNat < vi.dims.nt := by omega
  have hcast : ((s.it.toNat : Nat) : Int) = s.it := by omega
  simp only [CellModel.rows, buildPrecomp, List.map_map]
  refine List.map_congr_left ?_
  intro a _
  simp only [Function.comp, List.getD_eq_getElem?_getD, List.getElem?_map,
    List.getElem?_range hlt, Option.map_some, Option.getD_some, hcast]

end Geometry

end ValueIteration
