import ValueIteration.Bitboard.Storage
import ValueIteration.Lib.BitWalk
import ValueIteration.Lib.Loops

/-!
# The iterators over set bits

`enumerate` returns a lazy iterator. It keeps the counters of the word it is in and the bits of
that word that it has not emitted. `next` is the walk of `Lib.BitWalk` over these counters, and
what it yields is the list that the solvers work with.
-/

set_option autoImplicit false

namespace ValueIteration

/-- Position of cell `(ix, iy)` among the bits of the storage. -/
def Bitboard2D.bitIndex (bb : Bitboard2D) (c : Nat × Nat) : Nat :=
  (c.2 * wordsPerRow bb.mapX + c.1 / 64) * 64 + c.1 % 64

def Packed.Bitboard3D.bitIndex (bb : Packed.Bitboard3D) (c : Nat × Nat × Nat) : Nat :=
  bb.wordIndex c.2.2 c.2.1 (c.1 / 64) * 64 + c.1 % 64

/-- Counting bits word by word is counting them at the indices of the words. -/
theorem sum_popcount (data : List Word) :
    (data.map fun w => (List.range 64).countP fun b => w.getLsbD b).sum =
      ((List.range data.length).map fun k => (setBits (data.getD k 0)).length).sum := by
  have hdata : data = (List.range data.length).map fun k => data.getD k 0 := by
    apply List.ext_getElem
    · simp
    · intro i hi _
      simp [List.getD_eq_getElem?_getD, List.getElem?_eq_getElem hi]
  conv_lhs => rw [hdata, List.map_map]
  congr 1
  apply List.map_congr_left
  intro k _
  exact List.countP_eq_length_filter

namespace Bitboard2DIter

/-- The counters of the iterator; `word` is beside them in the cursor. -/
structure Counters where
  iy : Nat
  wi : Nat
  deriving DecidableEq, Repr

variable (bb : Bitboard2D)

/-- One turn of the loop in `advance`; `true` where it returns past the last row. -/
def step (c : Counters) : Counters × Bool :=
  if wordsPerRow bb.mapX ≤ c.wi + 1 then (⟨c.iy + 1, 0⟩, decide (bb.mapY ≤ c.iy + 1))
  else (⟨c.iy, c.wi + 1⟩, false)

theorem step_true {c : Counters} (h : (step bb c).2 = true) : bb.mapY ≤ (step bb c).1.iy := by
  by_cases hend : wordsPerRow bb.mapX ≤ c.wi + 1
  · rw [step, if_pos hend] at h ⊢
    exact of_decide_eq_true h
  · rw [step, if_neg hend] at h
    cases h

/-- Words that lie ahead in the rows that lie ahead, counted generously. -/
def left (c : Counters) : Nat :=
  (bb.mapY - c.iy) * (wordsPerRow bb.mapX + 1) + (wordsPerRow bb.mapX - c.wi)

theorem left_step {c : Counters} (h : (step bb c).2 = false) :
    left bb (step bb c).1 < left bb c := by
  by_cases hend : wordsPerRow bb.mapX ≤ c.wi + 1
  · rw [step, if_pos hend] at h ⊢
    have hin := of_decide_eq_false h
    have hrow : bb.mapY - c.iy = bb.mapY - (c.iy + 1) + 1 := by omega
    rw [left, left, hrow, Nat.succ_mul]
    dsimp only
    omega
  · rw [step, if_neg hend, left, left]
    apply Nat.add_lt_add_left
    exact Nat.sub_succ_lt_self _ _ (by omega)

def walk : Walk Counters 64 where
  load c := bb.data.getD (c.iy * wordsPerRow bb.mapX + c.wi) 0
  step := step bb
  past c := decide (bb.mapY ≤ c.iy)
  left := left bb
  left_step _ := left_step bb
  past_step _ h := decide_eq_true (step_true bb h)

/-- The first word is loaded, if there is one. -/
def new : Walk.Cursor Counters 64 :=
  ⟨⟨0, 0⟩, if 0 < bb.mapY ∧ 0 < wordsPerRow bb.mapX then bb.data.getD 0 0 else 0⟩

/-- Out-of-range bits are skipped. -/
def emit (c : Counters) (bit : Nat) : Option (Nat × Nat) :=
  if c.wi * 64 + bit < bb.mapX then some (c.wi * 64 + bit, c.iy) else none

def next (c : Walk.Cursor Counters 64) : Option (Nat × Nat) × Walk.Cursor Counters 64 :=
  (walk bb).next (emit bb) c

/-- The counters of a word of the storage. -/
def countersAt (k : Nat) : Counters := ⟨k / wordsPerRow bb.mapX, k % wordsPerRow bb.mapX⟩

variable {bb}

theorem step_countersAt (hX : 0 < bb.mapX) {k : Nat} (hk : k + 1 < bb.mapY * wordsPerRow bb.mapX) :
    step bb (countersAt bb k) = (countersAt bb (k + 1), false) := by
  have hwpr := div_lt_wordsPerRow hX
  rcases div_mod_succ (Nat.zero_lt_of_lt hwpr) k with ⟨hin, hrow, hcol⟩ | ⟨hout, hrow, hcol⟩
  · rw [step, countersAt, countersAt, if_neg (Nat.not_le.mpr hin), hrow, hcol]
  · have hlt : (k + 1) / wordsPerRow bb.mapX < bb.mapY :=
      Nat.div_lt_of_lt_mul (by rwa [Nat.mul_comm])
    rw [hrow] at hlt
    rw [step, countersAt, countersAt, if_pos hout.ge, hrow, hcol, decide_eq_false (Nat.not_le.mpr hlt)]

theorem step_last (hX : 0 < bb.mapX) {k : Nat} (hk : k + 1 = bb.mapY * wordsPerRow bb.mapX) :
    (step bb (countersAt bb k)).2 = true := by
  have hwpr := Nat.zero_lt_of_lt (div_lt_wordsPerRow hX)
  have hdiv : (k + 1) / wordsPerRow bb.mapX = bb.mapY := by rw [hk, Nat.mul_div_cancel _ hwpr]
  have hmod : (k + 1) % wordsPerRow bb.mapX = 0 := by rw [hk, Nat.mul_mod_left]
  rcases div_mod_succ hwpr k with ⟨_, _, hcol⟩ | ⟨hout, hrow, _⟩
  · omega
  · rw [step, countersAt, if_pos hout.ge]
    exact decide_eq_true (hdiv.symm.trans hrow).le

/-- The items of a word are the cells that the list has for it. -/
theorem items_eq (iy wi : Nat) :
    Walk.items (emit bb) ⟨iy, wi⟩ (bb.word iy wi) =
      ((List.range 64).filter fun b => (bb.word iy wi).getLsbD b && wi * 64 + b < bb.mapX).map
        fun b => (wi * 64 + b, iy) := by
  rw [Walk.items, setBits, ← List.filterMap_eq_filter, ← List.filterMap_eq_map,
    ← List.filterMap_eq_filter, List.filterMap_filterMap, List.filterMap_filterMap]
  apply List.filterMap_congr
  intro b _
  by_cases hbit : (bb.word iy wi).getLsbD b = true <;> by_cases hin : wi * 64 + b < bb.mapX <;>
    simp [emit, Option.guard, hbit, hin]

/-- The list of set cells goes through the words as they are stored. -/
theorem enumerate_eq : bb.enumerate =
    (List.range (bb.mapY * wordsPerRow bb.mapX)).flatMap fun k =>
      Walk.items (emit bb) (countersAt bb k) ((walk bb).load (countersAt bb k)) := by
  rw [Bitboard2D.enumerate, flatMap_range_flatMap]
  apply List.flatMap_congr
  intro k _
  exact (items_eq _ _).symm

/-- The iterator refines the list: it yields the cells of the list and stops. -/
theorem yields_enumerate (hX : 0 < bb.mapX) (hY : 0 < bb.mapY) :
    Yields (next bb) (new bb) bb.enumerate := by
  have hwpr := Nat.zero_lt_of_lt (div_lt_wordsPerRow hX)
  have hnew : new bb = ⟨countersAt bb 0, (walk bb).load (countersAt bb 0)⟩ := by
    simp [new, countersAt, walk, hY, hwpr]
  rw [hnew, enumerate_eq]
  apply Walk.yields_range (Nat.mul_pos hY hwpr)
  · simp [walk, countersAt, Nat.zero_div, hY.ne']
  · intro k hk
    refine ⟨step_countersAt hX hk, decide_eq_false (Nat.not_le.mpr ?_)⟩
    exact Nat.div_lt_of_lt_mul (by rwa [Nat.mul_comm])
  · exact fun k hk => step_last hX hk

/-- The word at a position, and the place of its bits. -/
theorem load_countersAt (k : Nat) : (walk bb).load (countersAt bb k) = bb.data.getD k 0 :=
  congrArg (fun i => bb.data.getD i 0) (Nat.div_add_mod' k _)

theorem pairwise_enumerate :
    bb.enumerate.Pairwise fun c c' => bb.bitIndex c < bb.bitIndex c' := by
  rw [enumerate_eq]
  apply Walk.pairwise_items
  intro k b c hb hemit
  obtain ⟨_, hcell⟩ := Option.ite_none_right_eq_some.mp hemit
  obtain rfl := Option.some.inj hcell
  have hdiv : (k % wordsPerRow bb.mapX * 64 + b) / 64 = k % wordsPerRow bb.mapX := by omega
  have hmod : (k % wordsPerRow bb.mapX * 64 + b) % 64 = b := by omega
  rw [Bitboard2D.bitIndex, countersAt, hdiv, hmod, Nat.div_add_mod']

theorem popcount_eq (hs : bb.Sized) (hclean : bb.Clean) : bb.popcount = bb.enumerate.length := by
  have hmem : ∀ k < bb.mapY * wordsPerRow bb.mapX, ∀ b,
      ((walk bb).load (countersAt bb k)).getLsbD b = true →
        (emit bb (countersAt bb k) b).isSome := by
    intro k hk b hbit
    have hb := List.mem_range.mp (List.mem_filter.mp (mem_setBits.mpr hbit)).1
    have hwpr : 0 < wordsPerRow bb.mapX := Nat.pos_of_mul_pos_left (Nat.zero_lt_of_lt hk)
    have hdiv : (k % wordsPerRow bb.mapX * 64 + b) / 64 = k % wordsPerRow bb.mapX := by omega
    have hmod : (k % wordsPerRow bb.mapX * 64 + b) % 64 = b := by omega
    have hin : k % wordsPerRow bb.mapX * 64 + b < bb.mapX := by
      apply hclean _ (k / wordsPerRow bb.mapX)
      · rw [hdiv]
        exact Nat.mod_lt k hwpr
      · exact (Nat.div_lt_iff_lt_mul hwpr).mpr hk
      · rw [Bitboard2D.Mem, hdiv, hmod]
        exact hbit
    rw [emit, countersAt, if_pos hin]
    rfl
  rw [enumerate_eq, Walk.length_items hmem, Bitboard2D.popcount, sum_popcount, hs]
  simp only [load_countersAt]

end Bitboard2DIter

namespace Bitboard3DIter

structure Counters where
  it : Nat
  iy : Nat
  wi : Nat
  deriving DecidableEq, Repr

variable (bb : Packed.Bitboard3D)

/-- One turn of the loop in `advance`; `true` where it returns past the last heading. -/
def step (c : Counters) : Counters × Bool :=
  if wordsPerRow bb.mapX ≤ c.wi + 1 then
    if bb.mapY ≤ c.iy + 1 then (⟨c.it + 1, 0, 0⟩, decide (bb.nTheta ≤ c.it + 1))
    else (⟨c.it, c.iy + 1, 0⟩, false)
  else (⟨c.it, c.iy, c.wi + 1⟩, false)

theorem step_true {c : Counters} (h : (step bb c).2 = true) : bb.nTheta ≤ (step bb c).1.it := by
  by_cases hend : wordsPerRow bb.mapX ≤ c.wi + 1
  · by_cases hrow : bb.mapY ≤ c.iy + 1
    · rw [step, if_pos hend, if_pos hrow] at h ⊢
      exact of_decide_eq_true h
    · rw [step, if_pos hend, if_neg hrow] at h
      cases h
  · rw [step, if_neg hend] at h
    cases h

/-- Words that lie ahead, with one more for every row and one more row for every heading. -/
def left (c : Counters) : Nat :=
  ((bb.nTheta - c.it) * (bb.mapY + 1) + (bb.mapY - c.iy)) * (wordsPerRow bb.mapX + 1) +
    (wordsPerRow bb.mapX - c.wi)

theorem left_step {c : Counters} (h : (step bb c).2 = false) :
    left bb (step bb c).1 < left bb c := by
  -- a new row costs at least as much as the words that it puts ahead
  have hcarry : ∀ rows rows' wi : Nat, rows' < rows →
      rows' * (wordsPerRow bb.mapX + 1) + (wordsPerRow bb.mapX - 0) <
        rows * (wordsPerRow bb.mapX + 1) + (wordsPerRow bb.mapX - wi) := by
    intro rows rows' wi hlt
    have hmul := Nat.mul_le_mul_right (wordsPerRow bb.mapX + 1) hlt
    rw [Nat.succ_mul] at hmul
    omega
  by_cases hend : wordsPerRow bb.mapX ≤ c.wi + 1
  · by_cases hrow : bb.mapY ≤ c.iy + 1
    · rw [step, if_pos hend, if_pos hrow] at h ⊢
      have hin := of_decide_eq_false h
      have hhead : bb.nTheta - c.it = bb.nTheta - (c.it + 1) + 1 := by omega
      apply hcarry
      dsimp only
      rw [hhead, Nat.succ_mul]
      omega
    · rw [step, if_pos hend, if_neg hrow]
      apply hcarry
      dsimp only
      omega
  · rw [step, if_neg hend, left, left]
    apply Nat.add_lt_add_left
    exact Nat.sub_succ_lt_self _ _ (by omega)

def walk : Walk Counters 64 where
  load c := bb.data.getD (bb.wordIndex c.it c.iy c.wi) 0
  step := step bb
  past c := decide (bb.nTheta ≤ c.it)
  left := left bb
  left_step _ := left_step bb
  past_step _ h := decide_eq_true (step_true bb h)

def new : Walk.Cursor Counters 64 :=
  ⟨⟨0, 0, 0⟩, if 0 < bb.nTheta ∧ 0 < bb.mapY ∧ 0 < wordsPerRow bb.mapX then bb.data.getD 0 0 else 0⟩

def emit (c : Counters) (bit : Nat) : Option (Nat × Nat × Nat) :=
  if c.wi * 64 + bit < bb.mapX then some (c.wi * 64 + bit, c.iy, c.it) else none

def next (c : Walk.Cursor Counters 64) : Option (Nat × Nat × Nat) × Walk.Cursor Counters 64 :=
  (walk bb).next (emit bb) c

def countersAt (k : Nat) : Counters :=
  ⟨k / bb.layerStride, k % bb.layerStride / wordsPerRow bb.mapX,
    k % bb.layerStride % wordsPerRow bb.mapX⟩

variable {bb}

/-- Counting on from the word at offset `j` of a layer. -/
theorem step_offset (hX : 0 < bb.mapX) {j : Nat} (hj : j < bb.layerStride) (it : Nat) :
    step bb ⟨it, j / wordsPerRow bb.mapX, j % wordsPerRow bb.mapX⟩ =
      if j + 1 < bb.layerStride then
        (⟨it, (j + 1) / wordsPerRow bb.mapX, (j + 1) % wordsPerRow bb.mapX⟩, false)
      else (⟨it + 1, 0, 0⟩, decide (bb.nTheta ≤ it + 1)) := by
  have hwpr := Nat.zero_lt_of_lt (div_lt_wordsPerRow hX)
  have hrows : (j + 1) / wordsPerRow bb.mapX < bb.mapY ↔ j + 1 < bb.layerStride :=
    Nat.div_lt_iff_lt_mul hwpr
  rcases div_mod_succ hwpr j with ⟨hin, hrow, hcol⟩ | ⟨hout, hrow, hcol⟩
  · have hlt : j / wordsPerRow bb.mapX < bb.mapY := (Nat.div_lt_iff_lt_mul hwpr).mpr hj
    rw [step, if_neg (Nat.not_le.mpr hin), if_pos (hrows.mp (hrow ▸ hlt)), hrow, hcol]
  · rw [step, if_pos hout.ge, hcol, hrow]
    by_cases hlast : j + 1 < bb.layerStride
    · have hlt := hrows.mpr hlast
      rw [hrow] at hlt
      rw [if_pos hlast, if_neg (Nat.not_le.mpr hlt)]
    · have hge := mt hrows.mp hlast
      rw [hrow] at hge
      rw [if_neg hlast, if_pos (Nat.le_of_not_lt hge)]

theorem layerStride_pos (hX : 0 < bb.mapX) (hY : 0 < bb.mapY) : 0 < bb.layerStride :=
  Nat.mul_pos hY (Nat.zero_lt_of_lt (div_lt_wordsPerRow hX))

theorem step_countersAt (hX : 0 < bb.mapX) (hY : 0 < bb.mapY) {k : Nat}
    (hk : k + 1 < bb.nTheta * bb.layerStride) :
    step bb (countersAt bb k) = (countersAt bb (k + 1), false) := by
  have hpos := layerStride_pos hX hY
  rw [countersAt, countersAt, step_offset hX (Nat.mod_lt k hpos)]
  rcases div_mod_succ hpos k with ⟨hin, hlayer, hoff⟩ | ⟨hout, hlayer, hoff⟩
  · rw [if_pos hin, hlayer, hoff]
  · have hlt : (k + 1) / bb.layerStride < bb.nTheta := (Nat.div_lt_iff_lt_mul hpos).mpr hk
    rw [hlayer] at hlt
    rw [if_neg hout.not_lt, hlayer, hoff, Nat.zero_div, Nat.zero_mod,
      decide_eq_false (Nat.not_le.mpr hlt)]

theorem step_last (hX : 0 < bb.mapX) (hY : 0 < bb.mapY) {k : Nat}
    (hk : k + 1 = bb.nTheta * bb.layerStride) : (step bb (countersAt bb k)).2 = true := by
  have hpos := layerStride_pos hX hY
  have hdiv : (k + 1) / bb.layerStride = bb.nTheta := by rw [hk, Nat.mul_div_cancel _ hpos]
  have hmod : (k + 1) % bb.layerStride = 0 := by rw [hk, Nat.mul_mod_left]
  rw [countersAt, step_offset hX (Nat.mod_lt k hpos)]
  rcases div_mod_succ hpos k with ⟨_, _, hoff⟩ | ⟨hout, hlayer, _⟩
  · omega
  · rw [if_neg hout.not_lt]
    exact decide_eq_true (hdiv.symm.trans hlayer).le

/-- A word of a layer has the cells of the layer, at its heading. -/
theorem items_layer {it iy wi : Nat} (hiy : iy < bb.mapY) (hwi : wi < wordsPerRow bb.mapX) :
    Walk.items (emit bb) ⟨it, iy, wi⟩ ((walk bb).load ⟨it, iy, wi⟩) =
      (Walk.items (Bitboard2DIter.emit (bb.layer it)) ⟨iy, wi⟩ ((bb.layer it).word iy wi)).map
        fun c => (c.1, c.2, it) := by
  rw [Packed.Bitboard3D.word_layer hiy hwi, Walk.items, Walk.items, List.map_filterMap]
  apply List.filterMap_congr
  intro b _
  by_cases hin : wi * 64 + b < bb.mapX
  · rw [emit, Bitboard2DIter.emit, if_pos hin, if_pos (show _ < (bb.layer it).mapX from hin)]
    rfl
  · rw [emit, Bitboard2DIter.emit, if_neg hin, if_neg (show ¬ _ < (bb.layer it).mapX from hin)]
    rfl

theorem enumerate_eq (hX : 0 < bb.mapX) : bb.layers.enumerate =
    (List.range (bb.nTheta * bb.layerStride)).flatMap fun k =>
      Walk.items (emit bb) (countersAt bb k) ((walk bb).load (countersAt bb k)) := by
  have hwpr := Nat.zero_lt_of_lt (div_lt_wordsPerRow hX)
  have hlayer : ∀ it ∈ List.range bb.nTheta,
      (bb.layers.layer it).enumerate.map (fun c => (c.1, c.2, it)) =
        (List.range bb.layerStride).flatMap fun j =>
          Walk.items (emit bb) ⟨it, j / wordsPerRow bb.mapX, j % wordsPerRow bb.mapX⟩
            ((walk bb).load ⟨it, j / wordsPerRow bb.mapX, j % wordsPerRow bb.mapX⟩) := by
    intro it hit
    rw [Packed.Bitboard3D.layer_layers (List.mem_range.mp hit), Bitboard2DIter.enumerate_eq,
      List.map_flatMap]
    apply List.flatMap_congr
    intro j hj
    have hrow := (Nat.div_lt_iff_lt_mul hwpr).mpr (List.mem_range.mp hj)
    exact (items_layer hrow (Nat.mod_lt j hwpr)).symm
  have hlen : bb.layers.length = bb.nTheta := by simp [Packed.Bitboard3D.layers]
  rw [Bitboard3D.enumerate, hlen, List.flatMap_congr hlayer, flatMap_range_flatMap]
  rfl

/-- The iterator of the packed board yields the list of its layers. -/
theorem yields_enumerate (hX : 0 < bb.mapX) (hY : 0 < bb.mapY) (hT : 0 < bb.nTheta) :
    Yields (next bb) (new bb) bb.layers.enumerate := by
  have hwpr := Nat.zero_lt_of_lt (div_lt_wordsPerRow hX)
  have hpos := layerStride_pos hX hY
  have hnew : new bb = ⟨countersAt bb 0, (walk bb).load (countersAt bb 0)⟩ := by
    simp [new, countersAt, walk, Packed.Bitboard3D.wordIndex, hT, hY, hwpr]
  rw [hnew, enumerate_eq hX]
  apply Walk.yields_range (Nat.mul_pos hT hpos)
  · simp [walk, countersAt, Nat.zero_div, hT.ne']
  · intro k hk
    refine ⟨step_countersAt hX hY hk, decide_eq_false (Nat.not_le.mpr ?_)⟩
    exact (Nat.div_lt_iff_lt_mul hpos).mpr hk
  · exact fun k hk => step_last hX hY hk

theorem wordIndex_countersAt (k : Nat) :
    bb.wordIndex (countersAt bb k).it (countersAt bb k).iy (countersAt bb k).wi = k := by
  rw [Packed.Bitboard3D.wordIndex_eq, countersAt, Nat.div_add_mod', Nat.div_add_mod']

theorem pairwise_enumerate (hX : 0 < bb.mapX) :
    bb.layers.enumerate.Pairwise fun c c' => bb.bitIndex c < bb.bitIndex c' := by
  rw [enumerate_eq hX]
  apply Walk.pairwise_items
  intro k b c hb hemit
  obtain ⟨_, hcell⟩ := Option.ite_none_right_eq_some.mp hemit
  obtain rfl := Option.some.inj hcell
  have hdiv : ((countersAt bb k).wi * 64 + b) / 64 = (countersAt bb k).wi := by omega
  have hmod : ((countersAt bb k).wi * 64 + b) % 64 = b := by omega
  rw [Packed.Bitboard3D.bitIndex, hdiv, hmod, wordIndex_countersAt]

theorem popcount_eq (hX : 0 < bb.mapX) (hs : bb.Sized) (hclean : bb.Clean) :
    bb.popcount = bb.layers.enumerate.length := by
  have hwpr := Nat.zero_lt_of_lt (div_lt_wordsPerRow hX)
  have hmem : ∀ k < bb.nTheta * bb.layerStride, ∀ b,
      ((walk bb).load (countersAt bb k)).getLsbD b = true →
        (emit bb (countersAt bb k) b).isSome := by
    intro k hk b hbit
    have hb := List.mem_range.mp (List.mem_filter.mp (mem_setBits.mpr hbit)).1
    have hpos : 0 < bb.layerStride := Nat.pos_of_mul_pos_left (Nat.zero_lt_of_lt hk)
    have hdiv : ((countersAt bb k).wi * 64 + b) / 64 = (countersAt bb k).wi := by omega
    have hmod : ((countersAt bb k).wi * 64 + b) % 64 = b := by omega
    have hin : (countersAt bb k).wi * 64 + b < bb.mapX := by
      apply hclean _ (countersAt bb k).iy (countersAt bb k).it
      · rw [hdiv]
        exact Nat.mod_lt _ hwpr
      · exact (Nat.div_lt_iff_lt_mul hwpr).mpr (Nat.mod_lt k hpos)
      · exact (Nat.div_lt_iff_lt_mul hpos).mpr hk
      · rw [Packed.Bitboard3D.Mem, hdiv, hmod]
        exact hbit
    rw [emit, if_pos hin]
    rfl
  have hlen : bb.data.length = bb.nTheta * bb.layerStride := by
    rw [hs, Nat.mul_assoc, Packed.Bitboard3D.layerStride]
  rw [enumerate_eq hX, Walk.length_items hmem, Packed.Bitboard3D.popcount, sum_popcount, hlen]
  simp only [walk, wordIndex_countersAt]

end Bitboard3DIter

/-- On boards of both kinds the iterator yields the set cells, each once and as they are stored. -/
theorem enumerate_exact :
    (∀ bb : Bitboard2D, 0 < bb.mapX → 0 < bb.mapY → bb.Sized → bb.Clean →
      ∃ cells, Yields (Bitboard2DIter.next bb) (Bitboard2DIter.new bb) cells ∧
        (∀ x y, (x, y) ∈ cells ↔ x < bb.mapX ∧ y < bb.mapY ∧ bb.Mem x y) ∧ cells.Nodup ∧
        (cells.Pairwise fun c c' => bb.bitIndex c < bb.bitIndex c') ∧
        bb.popcount = cells.length) ∧
    ∀ bb : Packed.Bitboard3D, 0 < bb.mapX → 0 < bb.mapY → 0 < bb.nTheta → bb.Sized → bb.Clean →
      ∃ cells, Yields (Bitboard3DIter.next bb) (Bitboard3DIter.new bb) cells ∧
        (∀ x y t, (x, y, t) ∈ cells ↔
          x < bb.mapX ∧ y < bb.mapY ∧ t < bb.nTheta ∧ bb.Mem x y t) ∧ cells.Nodup ∧
        (cells.Pairwise fun c c' => bb.bitIndex c < bb.bitIndex c') ∧
        bb.popcount = cells.length := by
  constructor
  · intro bb hX hY hs hclean
    exact ⟨bb.enumerate, Bitboard2DIter.yields_enumerate hX hY,
      fun x y => Bitboard2D.mem_enumerate, Bitboard2D.nodup_enumerate,
      Bitboard2DIter.pairwise_enumerate, Bitboard2DIter.popcount_eq hs hclean⟩
  · intro bb hX hY hT hs hclean
    have hsorted := @Bitboard3DIter.pairwise_enumerate bb hX
    have hnodup : bb.layers.enumerate.Nodup := hsorted.imp fun hlt heq => by
      rw [heq] at hlt
      exact absurd hlt (Nat.lt_irrefl _)
    refine ⟨bb.layers.enumerate, Bitboard3DIter.yields_enumerate hX hY hT, ?_, hnodup, hsorted,
      Bitboard3DIter.popcount_eq hX hs hclean⟩
    intro x y t
    rw [Bitboard3D.mem_enumerate (Packed.Bitboard3D.sized_layers hs)]
    constructor
    · rintro ⟨hx, hy, ht, hm⟩
      exact ⟨hx, hy, ht, (Packed.Bitboard3D.mem_layers (div_lt_wordsPerRow hx) hy ht).mp hm⟩
    · rintro ⟨hx, hy, ht, hm⟩
      exact ⟨hx, hy, ht, (Packed.Bitboard3D.mem_layers (div_lt_wordsPerRow hx) hy ht).mpr hm⟩

/-- A cell behind an empty word, and one on the last row of the last heading. -/
theorem enumerate_past_empty_words :
    (∃ cells, Yields (Bitboard2DIter.next ((Bitboard2D.new 70 2).set 64 1))
        (Bitboard2DIter.new ((Bitboard2D.new 70 2).set 64 1)) cells ∧ (64, 1) ∈ cells) ∧
      ∃ cells, Yields (Bitboard3DIter.next ((Packed.Bitboard3D.new 70 2 3).set 69 1 2))
        (Bitboard3DIter.new ((Packed.Bitboard3D.new 70 2 3).set 69 1 2)) cells ∧
        (69, 1, 2) ∈ cells := by
  have hsized := Bitboard2D.sized_new 70 2
  have hsized3 := Packed.Bitboard3D.sized_new 70 2 3
  obtain ⟨cells, hyields, hmem, _⟩ := enumerate_exact.1 ((Bitboard2D.new 70 2).set 64 1) (by decide)
    (by decide) (hsized.set 64 1) ((Bitboard2D.clean_new 70 2).set hsized (by decide) (by decide))
  obtain ⟨cells3, hyields3, hmem3, _⟩ := enumerate_exact.2
    ((Packed.Bitboard3D.new 70 2 3).set 69 1 2) (by decide) (by decide) (by decide)
    (hsized3.set 69 1 2)
    ((Packed.Bitboard3D.clean_new 70 2 3).set hsized3 (by decide) (by decide) (by decide))
  refine ⟨⟨cells, hyields, (hmem 64 1).mpr ?_⟩, cells3, hyields3, (hmem3 69 1 2).mpr ?_⟩
  · exact ⟨by decide, by decide, (by decide : _ = true)⟩
  · exact ⟨by decide, by decide, by decide, (by decide : _ = true)⟩

end ValueIteration
