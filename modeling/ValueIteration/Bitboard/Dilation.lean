import Mathlib.Data.List.Flatten
import ValueIteration.Bitboard.Storage
import ValueIteration.Lib.Grid

/-!
# Dilation on the packed words

`dilate2d_into` or-s shifted rows into the output, always reading the input, and then, row by
row, the shifts of a copy of the row. `dilate3d` does this for every layer and or-s whole
layers. Or-ing is a log of writes whose order does not matter, so a word of the output is the
word that the gathering form of the dilation computes.
-/

set_option autoImplicit false

namespace ValueIteration

namespace Packed

/-- `row_mask`. -/
def rowMasks (mapX : Nat) : List Word :=
  let nw := wordsPerRow mapX
  let mask := List.replicate nw (BitVec.allOnes 64)
  if mapX % 64 ≠ 0 then mask.set (nw - 1) ((1#64 <<< (mapX % 64)) - 1#64) else mask

/-- Rows per map, words per row and the mask of a row. -/
structure RowLayout where
  mapY : Nat
  wpr : Nat
  rmask : List Word

def orWord (dst : List Word) (i : Nat) (w : Word) : List Word := dst.set i (dst.getD i 0 ||| w)

def andWord (dst : List Word) (i : Nat) (w : Word) : List Word := dst.set i (dst.getD i 0 &&& w)

/-- `dst[start + w] |= row[w]` for `n` words. -/
def orRow (dst : List Word) (start : Nat) (row : Nat → Word) (n : Nat) : List Word :=
  (List.range n).foldl (fun dst w => orWord dst (start + w) (row w)) dst

def maskRow (dst : List Word) (start : Nat) (rmask : List Word) (n : Nat) : List Word :=
  (List.range n).foldl (fun dst w => andWord dst (start + w) (rmask.getD w 0)) dst

/-- `shift_row`: every word of `out` is written. -/
def shiftRowInto (row : List Word) (sx : Int) (rmask : List Word) : List Word :=
  (List.range row.length).map
    (shiftRow (fun i => row.getD i 0) row.length sx fun i => rmask.getD i 0)

/-- The Y-pass. -/
def yPass (l : RowLayout) (src : List Word) (dy : Nat) : List Word :=
  (List.range' 1 dy).foldl (fun dst sy =>
    (List.range l.mapY).foldl (fun dst r =>
      let row := fun w => src.getD (r * l.wpr + w) 0
      let dst := if r + sy < l.mapY then orRow dst ((r + sy) * l.wpr) row l.wpr else dst
      if sy ≤ r then orRow dst ((r - sy) * l.wpr) row l.wpr else dst) dst) src

/-- The X-pass on one row; `pos` is the row before it. -/
def xPassRow (l : RowLayout) (dx : Nat) (dst : List Word) (iy : Nat) : List Word :=
  let rowStart := iy * l.wpr
  let pos := (dst.drop rowStart).take l.wpr
  let dst := (List.range' 1 dx).foldl (fun (dst : List Word) (sx : Nat) =>
    let dst := orRow dst rowStart (fun w => (shiftRowInto pos sx l.rmask).getD w 0) l.wpr
    orRow dst rowStart (fun w => (shiftRowInto pos (-(sx : Int)) l.rmask).getD w 0) l.wpr) dst
  maskRow dst rowStart l.rmask l.wpr

/-- `dilate2d_into`: what `dst` holds afterwards; `none` is the panic of `assert!(dx < 64)`. -/
def dilate2dInto (l : RowLayout) (src : List Word) (dx dy : Nat) : Option (List Word) :=
  if dx < 64 then
    let dst := yPass l src dy
    if dx = 0 then
      some ((List.range l.mapY).foldl (fun dst iy => maskRow dst (iy * l.wpr) l.rmask l.wpr) dst)
    else some ((List.range l.mapY).foldl (xPassRow l dx) dst)
  else none

def dilate2d (bb : Bitboard2D) (dx dy : Nat) : Option Bitboard2D :=
  (dilate2dInto ⟨bb.mapY, wordsPerRow bb.mapX, rowMasks bb.mapX⟩ bb.data dx dy).map fun data =>
    { bb with data := data }

/-- The writes into a slice that starts at `start`. -/
def splice (temp : List Word) (start : Nat) (words : List Word) : List Word :=
  temp.take start ++ words ++ temp.drop (start + words.length)

/-- The theta pass: reads `temp`, writes `out`. -/
def thetaPass (temp : List Word) (nTheta stride dt : Nat) : List Word :=
  (List.range' 1 dt).foldl (fun out st =>
    (List.range nTheta).foldl (fun out it =>
      let plus := (it + st) % nTheta
      let minus := (it + nTheta - st) % nTheta
      orRow out (it * stride) (fun w =>
        temp.getD (plus * stride + w) 0 ||| temp.getD (minus * stride + w) 0) stride) out) temp

def dilate3d (bb : Bitboard3D) (dx dy dt : Nat) : Option Bitboard3D :=
  let l : RowLayout := ⟨bb.mapY, wordsPerRow bb.mapX, rowMasks bb.mapX⟩
  let stride := bb.layerStride
  let planes := (List.range bb.nTheta).foldlM (fun temp it =>
    (dilate2dInto l ((bb.data.drop (it * stride)).take stride) dx dy).map
      (splice temp (it * stride))) (List.replicate bb.data.length 0)
  planes.bind fun temp =>
    if dt = 0 then some { bb with data := temp }
    -- `it + n_theta - st` underflows at `it = 0`, `st = n_theta + 1`
    else if bb.nTheta < dt ∧ 0 < bb.nTheta then none
    else some { bb with data := thetaPass temp bb.nTheta stride dt }

section Log

/-- A log of or-ed words. -/
def orAll (log : List (Nat × Word)) (dst : List Word) : List Word :=
  log.foldl (fun dst p => orWord dst p.1 p.2) dst

def rowLog (start : Nat) (row : Nat → Word) (n : Nat) : List (Nat × Word) :=
  (List.range n).map fun w => (start + w, row w)

theorem orRow_eq (dst : List Word) (start : Nat) (row : Nat → Word) (n : Nat) :
    orRow dst start row n = orAll (rowLog start row n) dst := by
  rw [orAll, rowLog, List.foldl_map]
  rfl

theorem orAll_append (log log' : List (Nat × Word)) (dst : List Word) :
    orAll (log ++ log') dst = orAll log' (orAll log dst) := List.foldl_append

theorem foldl_orAll {α : Type} (log : α → List (Nat × Word)) (xs : List α) (dst : List Word) :
    xs.foldl (fun dst x => orAll (log x) dst) dst = orAll (xs.flatMap log) dst := by
  rw [orAll, List.foldl_flatMap]
  rfl

@[simp] theorem length_orAll (log : List (Nat × Word)) : ∀ dst : List Word,
    (orAll log dst).length = dst.length := by
  induction log with
  | nil => exact fun dst => rfl
  | cons p log ih =>
    intro dst
    rw [orAll, List.foldl_cons, ← orAll, ih, orWord, List.length_set]

theorem getD_orWord {dst : List Word} {i k : Nat} (hk : k < dst.length) (w : Word) :
    (orWord dst i w).getD k 0 = if i = k then dst.getD k 0 ||| w else dst.getD k 0 := by
  unfold orWord
  split
  · next h =>
    subst h
    simp [List.getD_eq_getElem?_getD, hk]
  · next h => rw [List.getD_eq_getElem?_getD, List.getElem?_set_ne h, List.getD_eq_getElem?_getD]

/-- A bit is set that was set before or that some write of the log sets. -/
theorem orAll_bit {k j : Nat} (log : List (Nat × Word)) : ∀ {dst : List Word}, k < dst.length →
    (((orAll log dst).getD k 0).getLsbD j = true ↔
      (dst.getD k 0).getLsbD j = true ∨ ∃ p ∈ log, p.1 = k ∧ p.2.getLsbD j = true) := by
  induction log with
  | nil => simp [orAll]
  | cons p log ih =>
    intro dst hk
    rw [orAll, List.foldl_cons, ← orAll, ih (by rw [orWord, List.length_set]; exact hk),
      getD_orWord hk, List.exists_mem_cons_iff]
    split
    · next h =>
      rw [BitVec.getLsbD_or, Bool.or_eq_true, or_assoc]
      simp only [h, true_and]
    · next h => simp only [h, false_and, false_or]

/-- What lies outside the slice of a row keeps its value, what lies inside is masked. -/
theorem maskRow_spec (start : Nat) (rmask : List Word) (n : Nat) (dst : List Word) :
    (maskRow dst start rmask n).length = dst.length ∧
    ∀ k < dst.length, (maskRow dst start rmask n).getD k 0 =
      if start ≤ k ∧ k < start + n then dst.getD k 0 &&& rmask.getD (k - start) 0
      else dst.getD k 0 := by
  induction n with
  | zero =>
    refine ⟨rfl, ?_⟩
    intro k _
    rw [if_neg (by omega)]
    rfl
  | succ n ih =>
    obtain ⟨hlen, hget⟩ := ih
    have hstep : maskRow dst start rmask (n + 1) =
        andWord (maskRow dst start rmask n) (start + n) (rmask.getD n 0) := by
      simp only [maskRow, List.range_succ, List.foldl_append, List.foldl_cons, List.foldl_nil]
    rw [hstep, andWord]
    refine ⟨by rw [List.length_set, hlen], ?_⟩
    intro k hk
    by_cases heq : start + n = k
    · subst heq
      have hold := hget _ hk
      rw [if_neg (by omega)] at hold
      rw [if_pos (by omega), List.getD_eq_getElem?_getD, List.getElem?_set_self (by rwa [hlen]),
        Option.getD_some, hold, Nat.add_sub_cancel_left]
    · rw [List.getD_eq_getElem?_getD, List.getElem?_set_ne heq, ← List.getD_eq_getElem?_getD,
        hget k hk]
      congr 1
      exact propext (by omega)

end Log

section Masks

theorem getD_rowMasks {mapX w : Nat} (hw : w < wordsPerRow mapX) :
    (rowMasks mapX).getD w 0 = rowMask mapX w := by
  have hfull : (List.replicate (wordsPerRow mapX) (BitVec.allOnes 64))[w]? =
      some (BitVec.allOnes 64) := by
    rw [List.getElem?_replicate, if_pos hw]
  unfold rowMasks rowMask
  simp only [List.getD_eq_getElem?_getD]
  by_cases hrem : mapX % 64 = 0
  · rw [if_neg (not_not.mpr hrem), if_neg (fun h => h.2 hrem), hfull, Option.getD_some]
  · rw [if_pos hrem]
    by_cases hlast : w + 1 = wordsPerRow mapX
    · have hidx : wordsPerRow mapX - 1 = w := by omega
      rw [if_pos ⟨hlast, hrem⟩, hidx, List.getElem?_set_self (by simpa using hw), Option.getD_some]
    · have hidx : wordsPerRow mapX - 1 ≠ w := by omega
      rw [if_neg (fun h => hlast h.1), List.getElem?_set_ne hidx, hfull, Option.getD_some]

/-- A shifted row depends on the words of the row only. -/
theorem shiftRow_congr {row row' rmask rmask' : Nat → Word} {nw i : Nat} (sx : Int)
    (hrow : ∀ k < nw, row k = row' k) (hmask : rmask i = rmask' i) (hi : i < nw) :
    shiftRow row nw sx rmask i = shiftRow row' nw sx rmask' i := by
  unfold shiftRow
  rw [hrow i hi, hmask]
  split
  · rfl
  · split
    · simp only
      split
      · rw [hrow (i - 1) (by omega)]
      · rfl
    · simp only
      split
      · next hlt => rw [hrow (i + 1) hlt]
      · rfl

theorem xDilated_congr {row row' : Nat → Word} {mapX dx i : Nat}
    (hrow : ∀ k < wordsPerRow mapX, row k = row' k) (hi : i < wordsPerRow mapX) :
    Bitboard2D.xDilated row mapX dx i = Bitboard2D.xDilated row' mapX dx i := by
  unfold Bitboard2D.xDilated
  rw [hrow i hi]
  congr 2
  funext acc k
  rw [shiftRow_congr _ hrow rfl hi, shiftRow_congr _ hrow rfl hi]

end Masks

section Plane

variable {mapX mapY dx : Nat}

/-- What a row function does to the row it is called for, and to the other rows. -/
structure RowSpec (mapX mapY dx : Nat) (f : List Word → Nat → List Word) : Prop where
  length : ∀ dst iy, (f dst iy).length = dst.length
  inside : ∀ dst iy w, dst.length = mapY * wordsPerRow mapX → iy < mapY → w < wordsPerRow mapX →
    (f dst iy).getD (iy * wordsPerRow mapX + w) 0 =
      Bitboard2D.xDilated (fun w => dst.getD (iy * wordsPerRow mapX + w) 0) mapX dx w
  outside : ∀ dst iy r w, dst.length = mapY * wordsPerRow mapX → iy < mapY → r < mapY →
    w < wordsPerRow mapX → r ≠ iy → (f dst iy).getD (r * wordsPerRow mapX + w) 0 =
      dst.getD (r * wordsPerRow mapX + w) 0

/-- The slice of one row has no word of another. -/
theorem row_slice {r iy w wpr : Nat} (hw : w < wpr) :
    (iy * wpr ≤ r * wpr + w ∧ r * wpr + w < iy * wpr + wpr) ↔ r = iy := by
  constructor
  · rintro ⟨h1, h2⟩
    rcases Nat.lt_trichotomy r iy with hlt | heq | hlt
    · have := Nat.mul_le_mul_right wpr hlt
      rw [Nat.succ_mul] at this
      omega
    · exact heq
    · have := Nat.mul_le_mul_right wpr hlt
      rw [Nat.succ_mul] at this
      omega
  · rintro rfl
    omega

theorem rowSpec_maskRow (mapX mapY : Nat) : RowSpec mapX mapY 0 fun dst iy =>
    maskRow dst (iy * wordsPerRow mapX) (rowMasks mapX) (wordsPerRow mapX) := by
  refine ⟨fun dst iy => (maskRow_spec _ _ _ dst).1, ?_, ?_⟩
  · intro dst iy w hlen hiy hw
    have hk : iy * wordsPerRow mapX + w < dst.length := by
      rw [hlen]
      exact Bitboard2D.word_index hiy hw
    rw [(maskRow_spec _ _ _ dst).2 _ hk, if_pos ((row_slice hw).mpr rfl), Nat.add_sub_cancel_left,
      getD_rowMasks hw]
    rfl
  · intro dst iy r w hlen hiy hr hw hne
    have hk : r * wordsPerRow mapX + w < dst.length := by
      rw [hlen]
      exact Bitboard2D.word_index hr hw
    rw [(maskRow_spec _ _ _ dst).2 _ hk, if_neg (fun h => hne ((row_slice hw).mp h))]

/-- The loop over the rows puts every row in its dilated form. -/
theorem RowSpec.foldl {f : List Word → Nat → List Word} (hf : RowSpec mapX mapY dx f)
    {dst : List Word} (hlen : dst.length = mapY * wordsPerRow mapX) {n : Nat} (hn : n ≤ mapY) :
    ((List.range n).foldl f dst).length = dst.length ∧
    ∀ r < mapY, ∀ w < wordsPerRow mapX,
      ((List.range n).foldl f dst).getD (r * wordsPerRow mapX + w) 0 =
        if r < n then
          Bitboard2D.xDilated (fun w => dst.getD (r * wordsPerRow mapX + w) 0) mapX dx w
        else dst.getD (r * wordsPerRow mapX + w) 0 := by
  induction n with
  | zero => exact ⟨rfl, fun r _ w _ => by rw [if_neg (Nat.not_lt_zero r)]; rfl⟩
  | succ n ih =>
    obtain ⟨hlen', hget⟩ := ih (by omega)
    have hlen'' := hlen'.trans hlen
    rw [List.range_succ, List.foldl_append, List.foldl_cons, List.foldl_nil]
    refine ⟨(hf.length _ _).trans hlen', ?_⟩
    intro r hr w hw
    by_cases heq : r = n
    · subst heq
      rw [hf.inside _ _ _ hlen'' hr hw, if_pos (Nat.lt_succ_self r)]
      apply xDilated_congr _ hw
      intro k hk
      rw [hget r hr k hk, if_neg (Nat.lt_irrefl r)]
    · rw [hf.outside _ _ _ _ hlen'' (by omega) hr hw heq, hget r hr w hw]
      by_cases hlt : r < n
      · rw [if_pos hlt, if_pos (by omega)]
      · rw [if_neg hlt, if_neg (by omega)]

theorem mem_rowLog {start n k : Nat} {row : Nat → Word} {p : Nat × Word} :
    p ∈ rowLog start row n ∧ p.1 = start + k ↔ k < n ∧ p = (start + k, row k) := by
  simp only [rowLog, List.mem_map, List.mem_range]
  constructor
  · rintro ⟨⟨w, hw, rfl⟩, heq⟩
    obtain rfl : w = k := Nat.add_left_cancel heq
    exact ⟨hw, rfl⟩
  · rintro ⟨hk, rfl⟩
    exact ⟨⟨k, hk, rfl⟩, rfl⟩

/-- The log of the X-pass on one row. -/
def xLog (l : RowLayout) (dx : Nat) (dst : List Word) (iy : Nat) : List (Nat × Word) :=
  let pos := (dst.drop (iy * l.wpr)).take l.wpr
  (List.range' 1 dx).flatMap fun (sx : Nat) =>
    rowLog (iy * l.wpr) (fun w => (shiftRowInto pos sx l.rmask).getD w 0) l.wpr ++
      rowLog (iy * l.wpr) (fun w => (shiftRowInto pos (-(sx : Int)) l.rmask).getD w 0) l.wpr

theorem xPassRow_eq (l : RowLayout) (dx : Nat) (dst : List Word) (iy : Nat) :
    xPassRow l dx dst iy = maskRow (orAll (xLog l dx dst iy) dst) (iy * l.wpr) l.rmask l.wpr := by
  rw [xLog, ← foldl_orAll]
  simp only [orAll_append, ← orRow_eq]
  rfl

theorem xLog_bit {l : RowLayout} {dx iy w j : Nat} {dst : List Word} (hw : w < l.wpr) :
    (∃ p ∈ xLog l dx dst iy, p.1 = iy * l.wpr + w ∧ p.2.getLsbD j = true) ↔
      ∃ k < dx, ((shiftRowInto ((dst.drop (iy * l.wpr)).take l.wpr) (k + 1 : Nat)
          l.rmask).getD w 0).getLsbD j = true ∨
        ((shiftRowInto ((dst.drop (iy * l.wpr)).take l.wpr) (-((k + 1 : Nat) : Int))
          l.rmask).getD w 0).getLsbD j = true := by
  simp only [xLog, List.mem_flatMap, List.mem_append, List.mem_range'_1]
  constructor
  · rintro ⟨p, ⟨sx, hsx, hp⟩, hidx, hbit⟩
    have hsucc : sx - 1 + 1 = sx := by omega
    refine ⟨sx - 1, by omega, ?_⟩
    rw [hsucc]
    rcases hp with hp | hp
    · obtain ⟨_, rfl⟩ := mem_rowLog.mp ⟨hp, hidx⟩
      exact Or.inl hbit
    · obtain ⟨_, rfl⟩ := mem_rowLog.mp ⟨hp, hidx⟩
      exact Or.inr hbit
  · rintro ⟨k, hk, hbit | hbit⟩
    · exact ⟨_, ⟨k + 1, by omega, Or.inl (mem_rowLog.mpr ⟨hw, rfl⟩).1⟩, rfl, hbit⟩
    · exact ⟨_, ⟨k + 1, by omega, Or.inr (mem_rowLog.mpr ⟨hw, rfl⟩).1⟩, rfl, hbit⟩

/-- A word of the shifted copy of a row. -/
theorem getD_shiftRowInto {dst : List Word} {iy w : Nat} (sx : Int)
    (hlen : dst.length = mapY * wordsPerRow mapX) (hiy : iy < mapY) (hw : w < wordsPerRow mapX) :
    (shiftRowInto ((dst.drop (iy * wordsPerRow mapX)).take (wordsPerRow mapX)) sx
      (rowMasks mapX)).getD w 0 =
    shiftRow (fun i => dst.getD (iy * wordsPerRow mapX + i) 0) (wordsPerRow mapX) sx
      (rowMask mapX) w := by
  have hle : iy * wordsPerRow mapX + wordsPerRow mapX ≤ dst.length := by
    rw [hlen, ← Nat.succ_mul]
    exact Nat.mul_le_mul_right _ hiy
  have hpos : ((dst.drop (iy * wordsPerRow mapX)).take (wordsPerRow mapX)).length =
      wordsPerRow mapX := by
    rw [List.length_take, List.length_drop]
    omega
  rw [shiftRowInto, List.getD_eq_getElem?_getD, List.getElem?_map, hpos,
    List.getElem?_range hw, Option.map_some, Option.getD_some]
  apply shiftRow_congr sx _ (getD_rowMasks hw) hw
  intro k hk
  simp only [List.getD_eq_getElem?_getD]
  rw [List.getElem?_take_of_lt hk, List.getElem?_drop]

theorem rowSpec_xPassRow (mapX mapY dx : Nat) :
    RowSpec mapX mapY dx (xPassRow ⟨mapY, wordsPerRow mapX, rowMasks mapX⟩ dx) := by
  refine ⟨?_, ?_, ?_⟩
  · intro dst iy
    rw [xPassRow_eq, (maskRow_spec _ _ _ _).1, length_orAll]
  · intro dst iy w hlen hiy hw
    have hk : iy * wordsPerRow mapX + w < dst.length := by
      rw [hlen]
      exact Bitboard2D.word_index hiy hw
    rw [xPassRow_eq, (maskRow_spec _ _ _ _).2 _ (by rwa [length_orAll]),
      if_pos ((row_slice hw).mpr rfl), Nat.add_sub_cancel_left, getD_rowMasks hw]
    refine congrArg (· &&& rowMask mapX w) ?_
    apply BitVec.eq_of_getLsbD_eq
    intro j _
    rw [Bool.eq_iff_iff, orAll_bit _ hk, xLog_bit hw, foldl_or_bit]
    simp only [getD_shiftRowInto _ hlen hiy hw, BitVec.getLsbD_or, Bool.or_eq_true]
  · intro dst iy r w hlen hiy hr hw hne
    have hk : r * wordsPerRow mapX + w < dst.length := by
      rw [hlen]
      exact Bitboard2D.word_index hr hw
    have hout : ¬ (iy * wordsPerRow mapX ≤ r * wordsPerRow mapX + w ∧
        r * wordsPerRow mapX + w < iy * wordsPerRow mapX + wordsPerRow mapX) :=
      fun h => hne ((row_slice hw).mp h)
    rw [xPassRow_eq, (maskRow_spec _ _ _ _).2 _ (by rwa [length_orAll]), if_neg hout]
    apply BitVec.eq_of_getLsbD_eq
    intro j _
    rw [Bool.eq_iff_iff, orAll_bit _ hk]
    constructor
    · rintro (hbit | ⟨p, hp, hidx, _⟩)
      · exact hbit
      · obtain ⟨sx, _, hp⟩ := List.mem_flatMap.mp hp
        have hslice : iy * wordsPerRow mapX ≤ p.1 ∧
            p.1 < iy * wordsPerRow mapX + wordsPerRow mapX := by
          rcases List.mem_append.mp hp with hp | hp
          · obtain ⟨v, hv, rfl⟩ := List.mem_map.mp hp
            have := List.mem_range.mp hv
            exact ⟨Nat.le_add_right _ _, Nat.add_lt_add_left this _⟩
          · obtain ⟨v, hv, rfl⟩ := List.mem_map.mp hp
            have := List.mem_range.mp hv
            exact ⟨Nat.le_add_right _ _, Nat.add_lt_add_left this _⟩
        rw [hidx] at hslice
        exact absurd hslice hout
    · exact Or.inl

/-- The log of the Y-pass. -/
def yLog (l : RowLayout) (src : List Word) (dy : Nat) : List (Nat × Word) :=
  (List.range' 1 dy).flatMap fun sy => (List.range l.mapY).flatMap fun r =>
    (if r + sy < l.mapY then
      rowLog ((r + sy) * l.wpr) (fun w => src.getD (r * l.wpr + w) 0) l.wpr else []) ++
    if sy ≤ r then rowLog ((r - sy) * l.wpr) (fun w => src.getD (r * l.wpr + w) 0) l.wpr else []

theorem yPass_eq (l : RowLayout) (src : List Word) (dy : Nat) :
    yPass l src dy = orAll (yLog l src dy) src := by
  have hif : ∀ (c : Prop) [Decidable c] (log : List (Nat × Word)) (dst : List Word),
      orAll (if c then log else []) dst = if c then orAll log dst else dst := by
    intro c _ log dst
    split <;> rfl
  rw [yLog, ← foldl_orAll]
  simp only [← foldl_orAll, orAll_append, hif, ← orRow_eq]
  rfl

/-- A word of the output gathers the words that the Y-pass scatters to it. -/
theorem getD_yPass {bb : Bitboard2D} (h : bb.Sized) (dy : Nat) {r w : Nat} (hr : r < bb.mapY)
    (hw : w < wordsPerRow bb.mapX) :
    (yPass ⟨bb.mapY, wordsPerRow bb.mapX, rowMasks bb.mapX⟩ bb.data dy).getD
      (r * wordsPerRow bb.mapX + w) 0 = bb.yDilated dy r w := by
  have hk : r * wordsPerRow bb.mapX + w < bb.data.length := by
    rw [h]
    exact Bitboard2D.word_index hr hw
  apply BitVec.eq_of_getLsbD_eq
  intro j _
  rw [yPass_eq, Bool.eq_iff_iff, orAll_bit _ hk, yDilated_bit hr]
  constructor
  · rintro (hbit | ⟨p, hp, hidx, hbit⟩)
    · exact ⟨r, hr, hbit, by omega, by omega⟩
    · obtain ⟨sy, hsy, hp⟩ := List.mem_flatMap.mp hp
      obtain ⟨q, hq, hp⟩ := List.mem_flatMap.mp hp
      have hdy := List.mem_range'_1.mp hsy
      have hqY := List.mem_range.mp hq
      rcases List.mem_append.mp hp with hp | hp
      · split at hp
        · obtain ⟨v, hv, rfl⟩ := List.mem_map.mp hp
          obtain ⟨hrow, rfl⟩ := Bitboard2D.word_index_inj (List.mem_range.mp hv) hw hidx
          exact ⟨q, hqY, hbit, by omega, by omega⟩
        · exact absurd hp List.not_mem_nil
      · split at hp
        · obtain ⟨v, hv, rfl⟩ := List.mem_map.mp hp
          obtain ⟨hrow, rfl⟩ := Bitboard2D.word_index_inj (List.mem_range.mp hv) hw hidx
          exact ⟨q, hqY, hbit, by omega, by omega⟩
        · exact absurd hp List.not_mem_nil
  · rintro ⟨q, hq, hbit, h1, h2⟩
    have hwrite : (r * wordsPerRow bb.mapX + w, bb.word q w) ∈ rowLog (r * wordsPerRow bb.mapX)
        (fun w => bb.data.getD (q * wordsPerRow bb.mapX + w) 0) (wordsPerRow bb.mapX) :=
      (mem_rowLog.mpr ⟨hw, rfl⟩).1
    rcases Nat.lt_trichotomy q r with hlt | rfl | hlt
    · have hsum : q + (r - q) = r := by omega
      refine Or.inr ⟨(r * wordsPerRow bb.mapX + w, bb.word q w), ?_, rfl, hbit⟩
      refine List.mem_flatMap.mpr ⟨r - q, List.mem_range'_1.mpr (by omega), ?_⟩
      refine List.mem_flatMap.mpr ⟨q, List.mem_range.mpr hq, List.mem_append_left _ ?_⟩
      rw [if_pos (by rw [hsum]; exact hr), hsum]
      exact hwrite
    · exact Or.inl hbit
    · have hdiff : q - (q - r) = r := by omega
      refine Or.inr ⟨(r * wordsPerRow bb.mapX + w, bb.word q w), ?_, rfl, hbit⟩
      refine List.mem_flatMap.mpr ⟨q - r, List.mem_range'_1.mpr (by omega), ?_⟩
      refine List.mem_flatMap.mpr ⟨q, List.mem_range.mpr hq, List.mem_append_right _ ?_⟩
      rw [if_pos (Nat.sub_le q r), hdiff]
      exact hwrite

/-- The passes in place compute the words of the gathering form. -/
theorem dilate2dInto_eq {bb : Bitboard2D} (h : bb.Sized) (dx dy : Nat) :
    dilate2dInto ⟨bb.mapY, wordsPerRow bb.mapX, rowMasks bb.mapX⟩ bb.data dx dy =
      (bb.dilate dx dy).map fun out => out.data := by
  have hlen : (yPass ⟨bb.mapY, wordsPerRow bb.mapX, rowMasks bb.mapX⟩ bb.data dy).length =
      bb.mapY * wordsPerRow bb.mapX := by
    rw [yPass_eq, length_orAll]
    exact h
  have hrows : ∀ f, RowSpec bb.mapX bb.mapY dx f → (List.range bb.mapY).foldl f
      (yPass ⟨bb.mapY, wordsPerRow bb.mapX, rowMasks bb.mapX⟩ bb.data dy) =
      (List.range (bb.mapY * wordsPerRow bb.mapX)).map fun k => Bitboard2D.xDilated
        (bb.yDilated dy (k / wordsPerRow bb.mapX)) bb.mapX dx (k % wordsPerRow bb.mapX) := by
    intro f hf
    obtain ⟨hlen', hget⟩ := hf.foldl hlen (le_refl bb.mapY)
    apply List.ext_getElem
    · rw [hlen', hlen, List.length_map, List.length_range]
    · intro k hk hk'
      rw [List.length_map, List.length_range] at hk'
      have hpos : 0 < wordsPerRow bb.mapX := by
        rcases Nat.eq_zero_or_pos (wordsPerRow bb.mapX) with h0 | h0
        · rw [h0] at hk'
          omega
        · exact h0
      have hrow : k / wordsPerRow bb.mapX < bb.mapY :=
        Nat.div_lt_of_lt_mul (by rwa [Nat.mul_comm])
      have hcol : k % wordsPerRow bb.mapX < wordsPerRow bb.mapX := Nat.mod_lt _ hpos
      have hword := hget _ hrow _ hcol
      rw [Nat.div_add_mod', if_pos hrow, List.getD_eq_getElem?_getD, List.getElem?_eq_getElem hk,
        Option.getD_some] at hword
      rw [hword, List.getElem_map, List.getElem_range]
      exact xDilated_congr (fun w hw => getD_yPass h dy hrow hw) hcol
  unfold dilate2dInto Bitboard2D.dilate
  by_cases hdx : dx < 64
  · rw [if_pos hdx, if_pos hdx, Option.map_some]
    by_cases hzero : dx = 0
    · subst hzero
      simp only [if_pos]
      rw [hrows _ (rowSpec_maskRow bb.mapX bb.mapY)]
    · simp only [if_neg hzero]
      rw [hrows _ (rowSpec_xPassRow bb.mapX bb.mapY dx)]
  · rw [if_neg hdx, if_neg hdx]
    rfl

/-- Refinement: the passes in place are the dilation of the solvers' boards. -/
theorem dilate2d_eq {bb : Bitboard2D} (h : bb.Sized) (dx dy : Nat) :
    dilate2d bb dx dy = bb.dilate dx dy := by
  rw [dilate2d, dilate2dInto_eq h, Option.map_map]
  unfold Bitboard2D.dilate
  split <;> rfl

end Plane

section Layers

theorem getElem?_splice {temp words : List Word} {start : Nat} (hstart : start ≤ temp.length)
    (k : Nat) : (splice temp start words)[k]? =
      if k < start then temp[k]?
      else if k < start + words.length then words[k - start]? else temp[k]? := by
  have htake : (temp.take start).length = start := by
    rw [List.length_take]
    omega
  unfold splice
  by_cases hlow : k < start
  · rw [if_pos hlow, List.getElem?_append_left, List.getElem?_append_left,
      List.getElem?_take_of_lt hlow]
    · rw [htake]
      exact hlow
    · rw [List.length_append, htake]
      omega
  · rw [if_neg hlow]
    by_cases hmid : k < start + words.length
    · rw [if_pos hmid, List.getElem?_append_left, List.getElem?_append_right, htake]
      · rw [htake]
        omega
      · rw [List.length_append, htake]
        exact hmid
    · rw [if_neg hmid, List.getElem?_append_right, List.getElem?_drop, List.length_append, htake]
      · congr 1
        omega
      · rw [List.length_append, htake]
        omega

theorem length_splice {temp words : List Word} {start : Nat}
    (h : start + words.length ≤ temp.length) : (splice temp start words).length = temp.length := by
  simp only [splice, List.length_append, List.length_take, List.length_drop]
  omega

theorem slice_splice_self {temp : List Word} (words : List Word) {start : Nat}
    (hstart : start ≤ temp.length) :
    ((splice temp start words).drop start).take words.length = words := by
  apply List.ext_getElem?
  intro k
  by_cases hk : k < words.length
  · rw [List.getElem?_take_of_lt hk, List.getElem?_drop, getElem?_splice hstart,
      if_neg (by omega), if_pos (by omega), Nat.add_sub_cancel_left]
  · rw [List.getElem?_eq_none (by rw [List.length_take]; omega),
      List.getElem?_eq_none (not_lt.mp hk)]

theorem slice_splice_before {temp : List Word} (words : List Word) {start a n : Nat}
    (hstart : start ≤ temp.length) (ha : a + n ≤ start) :
    ((splice temp start words).drop a).take n = (temp.drop a).take n := by
  apply List.ext_getElem?
  intro k
  by_cases hk : k < n
  · rw [List.getElem?_take_of_lt hk, List.getElem?_take_of_lt hk, List.getElem?_drop,
      List.getElem?_drop, getElem?_splice hstart, if_pos (by omega)]
  · rw [List.getElem?_eq_none (by rw [List.length_take]; omega),
      List.getElem?_eq_none (by rw [List.length_take]; omega)]

variable {bb : Bitboard3D} {dx : Nat}

/-- The dilated planes, layer by layer. -/
def Planes (bb : Bitboard3D) (dx dy n : Nat) (temp : List Word) : Prop :=
  temp.length = bb.data.length ∧
  ∀ t < n, (bb.layer t).dilate dx dy = some (Bitboard3D.layer { bb with data := temp } t)

/-- The loop over the layers fills `temp` with the dilated planes. -/
theorem planes_foldlM (h : bb.Sized) (hdx : dx < 64) (dy : Nat) {n : Nat} (hn : n ≤ bb.nTheta) :
    ∃ temp, (List.range n).foldlM (fun temp it =>
      (dilate2dInto ⟨bb.mapY, wordsPerRow bb.mapX, rowMasks bb.mapX⟩
        ((bb.data.drop (it * bb.layerStride)).take bb.layerStride) dx dy).map
          (splice temp (it * bb.layerStride))) (List.replicate bb.data.length 0) = some temp ∧
      Planes bb dx dy n temp := by
  induction n with
  | zero => exact ⟨_, rfl, List.length_replicate, fun t ht => absurd ht (Nat.not_lt_zero t)⟩
  | succ n ih =>
    obtain ⟨temp, hfold, hlen, hplanes⟩ := ih (by omega)
    have hsized := Bitboard3D.sized_layer h (show n < bb.nTheta by omega)
    obtain ⟨out, hout⟩ := Bitboard2D.dilate_isSome hdx (bb.layer n) dy
    obtain ⟨hsizedOut, hoX, hoY⟩ := Bitboard2D.dilate_dims hout
    have hwords : out.data.length = bb.layerStride := by
      rw [hsizedOut, hoX, hoY]
      rfl
    have hinto : dilate2dInto ⟨bb.mapY, wordsPerRow bb.mapX, rowMasks bb.mapX⟩
        ((bb.data.drop (n * bb.layerStride)).take bb.layerStride) dx dy = some out.data := by
      have h := dilate2dInto_eq hsized dx dy
      rw [hout] at h
      exact h
    have hle := Bitboard3D.layer_slice_le h (show n < bb.nTheta by omega)
    have hstart : n * bb.layerStride ≤ temp.length := by
      rw [hlen]
      omega
    refine ⟨splice temp (n * bb.layerStride) out.data, ?_, ?_, ?_⟩
    · rw [List.range_succ, List.foldlM_append, hfold]
      simp [hinto]
    · rw [length_splice (by rw [hwords, hlen]; exact hle), hlen]
    · intro t ht
      by_cases heq : t = n
      · subst heq
        have hslice := slice_splice_self out.data hstart
        rw [hwords] at hslice
        rw [hout]
        refine congrArg some ?_
        simp only [Bitboard3D.layer, Bitboard3D.layerStride] at hslice hoX hoY ⊢
        rw [hslice, ← hoX, ← hoY]
      · rw [hplanes t (by omega)]
        have hbefore : t * bb.layerStride + bb.layerStride ≤ n * bb.layerStride := by
          rw [← Nat.succ_mul]
          exact Nat.mul_le_mul_right _ (by omega)
        have hslice := slice_splice_before out.data hstart hbefore
        simp only [Bitboard3D.layer, Bitboard3D.layerStride] at hslice ⊢
        rw [hslice]

theorem mapM_map {α β γ : Type} {f : β → Option γ} {g : α → β} {g' : α → γ} {xs : List α}
    (h : ∀ x ∈ xs, f (g x) = some (g' x)) : (xs.map g).mapM f = some (xs.map g') := by
  induction xs with
  | nil => rfl
  | cons x xs ih =>
    rw [List.map_cons, List.mapM_cons, h x List.mem_cons_self,
      ih fun y hy => h y (List.mem_cons_of_mem _ hy)]
    rfl

/-- The log of the theta pass. -/
def thetaLog (temp : List Word) (nTheta stride dt : Nat) : List (Nat × Word) :=
  (List.range' 1 dt).flatMap fun st => (List.range nTheta).flatMap fun it =>
    rowLog (it * stride) (fun w => temp.getD ((it + st) % nTheta * stride + w) 0 |||
      temp.getD ((it + nTheta - st) % nTheta * stride + w) 0) stride

theorem thetaPass_eq (temp : List Word) (nTheta stride dt : Nat) :
    thetaPass temp nTheta stride dt = orAll (thetaLog temp nTheta stride dt) temp := by
  rw [thetaLog, ← foldl_orAll]
  simp only [← foldl_orAll, ← orRow_eq]
  rfl

/-- A bit of a layer comes from a layer at most `dt` headings away. -/
theorem thetaPass_bit {temp : List Word} {nTheta stride dt it i j : Nat} (hit : it < nTheta)
    (hi : i < stride) (hlen : it * stride + i < temp.length) :
    ((thetaPass temp nTheta stride dt).getD (it * stride + i) 0).getLsbD j = true ↔
      ∃ t, ThetaNear nTheta dt it t ∧ (temp.getD (t * stride + i) 0).getLsbD j = true := by
  rw [thetaPass_eq, orAll_bit _ hlen]
  constructor
  · rintro (hbit | ⟨p, hp, hidx, hbit⟩)
    · exact ⟨it, ⟨0, Nat.zero_le _, Or.inl (Nat.mod_eq_of_lt hit).symm⟩, hbit⟩
    · obtain ⟨st, hst, hp⟩ := List.mem_flatMap.mp hp
      obtain ⟨it', _, hp⟩ := List.mem_flatMap.mp hp
      obtain ⟨v, hv, rfl⟩ := List.mem_map.mp hp
      obtain ⟨rfl, rfl⟩ := Bitboard2D.word_index_inj (List.mem_range.mp hv) hi hidx
      have hdt := List.mem_range'_1.mp hst
      rw [BitVec.getLsbD_or, Bool.or_eq_true] at hbit
      rcases hbit with hbit | hbit
      · exact ⟨_, ⟨st, by omega, Or.inl rfl⟩, hbit⟩
      · exact ⟨_, ⟨st, by omega, Or.inr rfl⟩, hbit⟩
  · rintro ⟨t, ⟨k, hk, ht⟩, hbit⟩
    rcases Nat.eq_zero_or_pos k with rfl | hpos
    · have hself : t = it := by
        rcases ht with rfl | rfl
        · exact Nat.mod_eq_of_lt hit
        · rw [Nat.sub_zero, Nat.add_mod_right, Nat.mod_eq_of_lt hit]
      rw [hself] at hbit
      exact Or.inl hbit
    · refine Or.inr ⟨_, List.mem_flatMap.mpr ⟨k, List.mem_range'_1.mpr (by omega),
        List.mem_flatMap.mpr ⟨it, List.mem_range.mpr hit, (mem_rowLog.mpr ⟨hi, rfl⟩).1⟩⟩, rfl, ?_⟩
      rw [BitVec.getLsbD_or, Bool.or_eq_true]
      rcases ht with rfl | rfl
      · exact Or.inl hbit
      · exact Or.inr hbit

theorem dilate3d_eq_some (h : bb.Sized) (hdx : dx < 64) (dy : Nat) {dt : Nat}
    (hdt : dt ≤ bb.nTheta) : ∃ temp, Planes bb dx dy bb.nTheta temp ∧
      dilate3d bb dx dy dt = some { bb with data := thetaPass temp bb.nTheta bb.layerStride dt } := by
  obtain ⟨temp, hfold, hplanes⟩ := planes_foldlM h hdx dy (le_refl bb.nTheta)
  refine ⟨temp, hplanes, ?_⟩
  unfold dilate3d
  simp only [hfold, Option.bind_some]
  by_cases hzero : dt = 0
  · subst hzero
    rfl
  · rw [if_neg hzero, if_neg (by omega)]

theorem thetaNear_lt {nt dt t t' : Nat} (ht : t < nt) (h : ThetaNear nt dt t t') : t' < nt := by
  obtain ⟨k, _, rfl | rfl⟩ := h
  · exact Nat.mod_lt _ (by omega)
  · exact Nat.mod_lt _ (by omega)

/-- Refinement: the layers of the output are the dilation of the layers. -/
theorem layers_thetaPass (h : bb.Sized) {dy : Nat} (dt : Nat) {temp : List Word}
    (hplanes : Planes bb dx dy bb.nTheta temp) :
    let out : Bitboard3D := { bb with data := thetaPass temp bb.nTheta bb.layerStride dt }
    out.Sized ∧ bb.layers.dilate dx dy dt = some out.layers := by
  intro out
  obtain ⟨hlen, hlayers⟩ := hplanes
  let mid : Bitboard3D := { bb with data := temp }
  have hmid : mid.Sized := hlen.trans h
  have hsized : out.Sized := by
    simp only [out, Bitboard3D.Sized, thetaPass_eq, length_orAll]
    exact hmid
  refine ⟨hsized, ?_⟩
  have hmapM : bb.layers.mapM (fun b : Bitboard2D => b.dilate dx dy) = some mid.layers :=
    mapM_map fun t ht => hlayers t (List.mem_range.mp ht)
  have hmidLayers : mid.layers.Sized bb.mapX bb.mapY bb.nTheta := Bitboard3D.sized_layers hmid
  rw [ValueIteration.Bitboard3D.dilate, hmapM, Option.map_some, hmidLayers.length_eq]
  refine congrArg some (List.map_congr_left ?_)
  intro it hit
  have hlt : it < bb.nTheta := List.mem_range.mp hit
  obtain ⟨⟨hs, hX, hY⟩, hmem⟩ :=
    mem_thetaMerge hmidLayers.layers (by rw [hmidLayers.length_eq]; exact hlt) dt
  apply Bitboard2D.eq_of_mem hs (Bitboard3D.sized_layer hsized hlt) hX hY
  intro x y hx hy
  have hword : y * wordsPerRow bb.mapX + x / 64 < bb.layerStride := Bitboard2D.word_index hy hx
  have hslice : it * bb.layerStride + bb.layerStride ≤ temp.length :=
    Bitboard3D.layer_slice_le hmid hlt
  have hout : (out.layer it).Mem x y ↔ ((thetaPass temp bb.nTheta bb.layerStride dt).getD
      (it * bb.layerStride + (y * wordsPerRow bb.mapX + x / 64)) 0).getLsbD (x % 64) = true := by
    have h := @Bitboard3D.mem_layer out x y it hx hy
    rwa [Bitboard3D.Mem, Bitboard3D.wordIndex_eq] at h
  have hin : ∀ t, t < bb.nTheta → ((mid.layers.getD t (Bitboard2D.new 0 0)).Mem x y ↔
      (temp.getD (t * bb.layerStride + (y * wordsPerRow bb.mapX + x / 64)) 0).getLsbD (x % 64) =
        true) := by
    intro t ht
    have h := @Bitboard3D.mem_layers mid x y t hx hy ht
    rwa [Bitboard3D.Mem, Bitboard3D.wordIndex_eq] at h
  rw [hmem, hout, thetaPass_bit hlt hword (by omega), hmidLayers.length_eq]
  constructor
  · rintro ⟨t, hnear, hm⟩
    exact ⟨t, hnear, (hin t (thetaNear_lt hlt hnear)).mp hm⟩
  · rintro ⟨t, hnear, hbit⟩
    exact ⟨t, hnear, (hin t (thetaNear_lt hlt hnear)).mpr hbit⟩

end Layers

section Exact

/-- Both merges together reach the headings at circular distance at most `dt`. -/
theorem thetaNear_iff {nt dt t t' : Nat} (hdt : dt ≤ nt) (ht : t < nt) (ht' : t' < nt) :
    ThetaNear nt dt t t' ↔ circularDistance nt t t' ≤ dt := by
  have hmod : ∀ {a : Nat}, a < 2 * nt → a % nt = if a < nt then a else a - nt := by
    intro a ha
    split
    · next hlt => exact Nat.mod_eq_of_lt hlt
    · next hge => rw [Nat.mod_eq_sub_mod (not_lt.mp hge), Nat.mod_eq_of_lt (by omega)]
  unfold circularDistance
  constructor
  · rintro ⟨k, hk, rfl | rfl⟩
    · rw [hmod (by omega)]
      split <;> omega
    · rw [hmod (by omega)]
      split <;> omega
  · intro hle
    rcases Nat.lt_or_ge dt ((t : Int) - t').natAbs with hfar | hnear
    · refine ⟨nt - ((t : Int) - t').natAbs, by omega, ?_⟩
      rcases Nat.lt_or_ge t t' with hlt | hge
      · refine Or.inr ?_
        rw [hmod (by omega)]
        split <;> omega
      · refine Or.inl ?_
        rw [hmod (by omega)]
        split <;> omega
    · refine ⟨((t : Int) - t').natAbs, hnear, ?_⟩
      rcases Nat.lt_or_ge t' t with hlt | hge
      · refine Or.inr ?_
        rw [hmod (by omega)]
        split <;> omega
      · refine Or.inl ?_
        rw [hmod (by omega)]
        split <;> omega

/-- The last step of a dilation masks every word. -/
theorem clean_dilate {bb out : Bitboard2D} {dx dy : Nat} (h : bb.dilate dx dy = some out) :
    out.Clean := by
  unfold Bitboard2D.dilate at h
  split at h
  · cases h
    intro x y hx hy hmem
    have hidx := Bitboard2D.word_index hy hx
    have hpos : 0 < wordsPerRow bb.mapX := Nat.zero_lt_of_lt hx
    have hmod : (y * wordsPerRow bb.mapX + x / 64) % wordsPerRow bb.mapX = x / 64 := by
      rw [Nat.add_comm, Nat.add_mul_mod_self_right, Nat.mod_eq_of_lt hx]
    simp only [Bitboard2D.Mem, Bitboard2D.word, List.getD_eq_getElem?_getD, List.getElem?_map,
      List.getElem?_range hidx, Option.map_some, Option.getD_some, hmod, Bitboard2D.xDilated,
      BitVec.getLsbD_and, Bool.and_eq_true] at hmem
    have hmask := hmem.2
    rw [rowMask_bit hx] at hmask
    exact of_decide_eq_true hmask
  · cases h

theorem clean_thetaPass {bb : Bitboard3D} {dx dy : Nat} (h : bb.Sized) (dt : Nat)
    {temp : List Word} (hplanes : Planes bb dx dy bb.nTheta temp) :
    Bitboard3D.Clean { bb with data := thetaPass temp bb.nTheta bb.layerStride dt } := by
  intro x y t hx hy ht hmem
  let mid : Bitboard3D := { bb with data := temp }
  have hmid : mid.Sized := hplanes.1.trans h
  have hword : y * wordsPerRow bb.mapX + x / 64 < bb.layerStride := Bitboard2D.word_index hy hx
  have hslice : t * bb.layerStride + bb.layerStride ≤ temp.length :=
    Bitboard3D.layer_slice_le hmid ht
  rw [Bitboard3D.Mem, Bitboard3D.wordIndex_eq] at hmem
  obtain ⟨t', hnear, hbit⟩ := (thetaPass_bit ht hword (by omega)).mp hmem
  have hplane := hplanes.2 t' (thetaNear_lt ht hnear)
  apply clean_dilate hplane x y hx hy
  apply (@Bitboard3D.mem_layer mid x y t' hx hy).mpr
  rw [Bitboard3D.Mem, Bitboard3D.wordIndex_eq]
  exact hbit

end Exact

end Packed

open Packed in
/-- Dilation of a clean board is again a clean board of its size; it has a cell exactly when
the box around the cell, periodic in the heading, has a cell of the board. -/
theorem dilate_exact :
    (∀ (bb : Bitboard2D) (dx dy : Nat), bb.Sized → bb.Clean → dx < 64 →
      ∃ out, dilate2d bb dx dy = some out ∧ out.Sized ∧ out.Clean ∧
        (out.mapX, out.mapY) = (bb.mapX, bb.mapY) ∧
        ∀ x < bb.mapX, ∀ y < bb.mapY, (out.Mem x y ↔
          ∃ x' < bb.mapX, ∃ y' < bb.mapY, bb.Mem x' y' ∧
            ((x : Int) - x').natAbs ≤ dx ∧ ((y : Int) - y').natAbs ≤ dy)) ∧
    ∀ (bb : Packed.Bitboard3D) (dx dy dt : Nat), bb.Sized → bb.Clean → dx < 64 →
      dt ≤ bb.nTheta →
      ∃ out, dilate3d bb dx dy dt = some out ∧ out.Sized ∧ out.Clean ∧
        (out.mapX, out.mapY, out.nTheta) = (bb.mapX, bb.mapY, bb.nTheta) ∧
        ∀ x < bb.mapX, ∀ y < bb.mapY, ∀ t < bb.nTheta, (out.Mem x y t ↔
          ∃ x' < bb.mapX, ∃ y' < bb.mapY, ∃ t' < bb.nTheta, bb.Mem x' y' t' ∧
            ((x : Int) - x').natAbs ≤ dx ∧ ((y : Int) - y').natAbs ≤ dy ∧
            circularDistance bb.nTheta t t' ≤ dt) := by
  constructor
  · intro bb dx dy hsized hclean hdx
    obtain ⟨out, hout⟩ := Bitboard2D.dilate_isSome hdx bb dy
    obtain ⟨hs, hX, hY⟩ := Bitboard2D.dilate_dims hout
    refine ⟨out, (dilate2d_eq hsized dx dy).trans hout, hs, clean_dilate hout, by rw [hX, hY], ?_⟩
    intro x hx y hy
    rw [Bitboard2D.mem_dilate hout hx hy]
    constructor
    · rintro ⟨x', y', hx', hy', hm, ⟨h1, h2⟩, h3, h4⟩
      exact ⟨x', hclean x' y' hx' hy' hm, y', hy', hm, by omega, by omega⟩
    · rintro ⟨x', hx', y', hy', hm, h1, h2⟩
      exact ⟨x', y', div_lt_wordsPerRow hx', hy', hm, by omega, by omega⟩
  · intro bb dx dy dt hsized hclean hdx hdt
    obtain ⟨temp, hplanes, hout⟩ := dilate3d_eq_some hsized hdx dy hdt
    obtain ⟨hs, hlayers⟩ := layers_thetaPass hsized dt hplanes
    refine ⟨_, hout, hs, clean_thetaPass hsized dt hplanes, rfl, ?_⟩
    intro x hx y hy t ht
    obtain ⟨_, hmem⟩ := ValueIteration.Bitboard3D.mem_dilate (Bitboard3D.sized_layers hsized) hlayers
    have hw := div_lt_wordsPerRow hx
    rw [← @Bitboard3D.mem_layers { bb with data := thetaPass temp bb.nTheta bb.layerStride dt }
      x y t hw hy ht, hmem x y t hx hy ht]
    constructor
    · rintro ⟨x', y', t', hx', hy', hnear, hm, ⟨h1, h2⟩, h3, h4⟩
      have ht' := thetaNear_lt ht hnear
      have hm' := (Bitboard3D.mem_layers hx' hy' ht').mp hm
      exact ⟨x', hclean x' y' t' hx' hy' ht' hm', y', hy', t', ht', hm', by omega, by omega,
        (thetaNear_iff hdt ht ht').mp hnear⟩
    · rintro ⟨x', hx', y', hy', t', ht', hm, h1, h2, h3⟩
      exact ⟨x', y', t', div_lt_wordsPerRow hx', hy', (thetaNear_iff hdt ht ht').mpr h3,
        (Bitboard3D.mem_layers (div_lt_wordsPerRow hx') hy' ht').mpr hm, by omega, by omega⟩

/-- A bit is carried into the next word and over the last heading. -/
theorem dilate_across_words :
    (∃ out, Packed.dilate2d ((Bitboard2D.new 70 1).set 63 0) 1 0 = some out ∧ out.Mem 64 0) ∧
      ∃ out, Packed.dilate3d ((Packed.Bitboard3D.new 70 1 4).set 63 0 3) 1 0 1 = some out ∧
        out.Mem 64 0 0 := by
  have hsized := (Bitboard2D.sized_new 70 1)
  have hsized3 := Packed.Bitboard3D.sized_new 70 1 4
  obtain ⟨out, hout, _, _, _, hmem⟩ := dilate_exact.1 ((Bitboard2D.new 70 1).set 63 0) 1 0
    (hsized.set 63 0) ((Bitboard2D.clean_new 70 1).set hsized (by decide) (by decide)) (by decide)
  obtain ⟨out3, hout3, _, _, _, hmem3⟩ := dilate_exact.2
    ((Packed.Bitboard3D.new 70 1 4).set 63 0 3) 1 0 1 (hsized3.set 63 0 3)
    ((Packed.Bitboard3D.clean_new 70 1 4).set hsized3 (by decide) (by decide) (by decide))
    (by decide) (by decide)
  refine ⟨⟨out, hout, (hmem 64 (by decide) 0 (by decide)).mpr ?_⟩, out3, hout3,
    (hmem3 64 (by decide) 0 (by decide) 0 (by decide)).mpr ?_⟩
  · exact ⟨63, by decide, 0, by decide, (by decide : _ = true), by decide, by decide⟩
  · exact ⟨63, by decide, 0, by decide, 3, by decide, (by decide : _ = true), by decide, by decide,
      by decide⟩

end ValueIteration
