import Mathlib.Data.List.Basic
import Mathlib.Data.BitVec

/-!
# Word-packed bitboards

Rows are packed 64 bits a word, lowest `x` first. Dilation works on whole words:
rows within `dy` are or-ed, then every row is or-ed with its shifts by up to `dx`
bits and masked to the map. `mem_dilate` says which cells come out of it; the
solvers use nothing else about the bits. A dilation by `dx ≥ 64` panics.
-/

set_option autoImplicit false

namespace ValueIteration

abbrev Word := BitVec 64

/-- `map_x.div_ceil(64)`. -/
def wordsPerRow (mapX : Nat) : Nat := (mapX + 63) / 64

/-- Validity mask of word `wi` of a row: only the last word may be partial. -/
def rowMask (mapX wi : Nat) : Word :=
  if wi + 1 = wordsPerRow mapX ∧ mapX % 64 ≠ 0 then (1#64 <<< (mapX % 64)) - 1#64
  else BitVec.allOnes 64

structure Bitboard2D where
  data : List Word
  mapX : Nat
  mapY : Nat
  deriving DecidableEq, Repr

namespace Bitboard2D

def new (mapX mapY : Nat) : Bitboard2D :=
  ⟨List.replicate (mapY * wordsPerRow mapX) 0, mapX, mapY⟩

def word (bb : Bitboard2D) (iy wi : Nat) : Word :=
  bb.data.getD (iy * wordsPerRow bb.mapX + wi) 0

def set (bb : Bitboard2D) (ix iy : Nat) : Bitboard2D :=
  let idx := iy * wordsPerRow bb.mapX + ix / 64
  { bb with data := bb.data.set idx (bb.data.getD idx 0 ||| (1#64 <<< (ix % 64))) }

def test (bb : Bitboard2D) (ix iy : Nat) : Bool :=
  bb.word iy (ix / 64) &&& (1#64 <<< (ix % 64)) != 0

def popcount (bb : Bitboard2D) : Nat :=
  (bb.data.map fun w => (List.range 64).countP fun b => w.getLsbD b).sum

end Bitboard2D

/-- Word `i` of a row of `nw` words shifted by `sx` bits, carries included (`shift_row`). -/
def shiftRow (row : Nat → Word) (nw : Nat) (sx : Int) (rmask : Nat → Word) (i : Nat) : Word :=
  if sx = 0 then row i &&& rmask i
  else if 0 < sx then
    let s := sx.toNat
    ((row i <<< s) ||| (if 0 < i then row (i - 1) >>> (64 - s) else 0)) &&& rmask i
  else
    let n := (-sx).toNat
    ((row i >>> n) ||| (if i + 1 < nw then row (i + 1) <<< (64 - n) else 0)) &&& rmask i

namespace Bitboard2D

/-- The Y-pass: the code scatters row `r` to `r ± sy`, here row `r` gathers. -/
def yDilated (bb : Bitboard2D) (dy r wi : Nat) : Word :=
  (List.range dy).foldl (fun acc k =>
    acc ||| ((if r + (k + 1) < bb.mapY then bb.word (r + (k + 1)) wi else 0) |||
      (if k + 1 ≤ r then bb.word (r - (k + 1)) wi else 0))) (bb.word r wi)

/-- The X-pass on one row and the final mask. -/
def xDilated (row : Nat → Word) (mapX dx wi : Nat) : Word :=
  (List.range dx).foldl (fun acc k =>
    acc ||| (shiftRow row (wordsPerRow mapX) (k + 1 : Nat) (rowMask mapX) wi |||
      shiftRow row (wordsPerRow mapX) (-((k + 1 : Nat) : Int)) (rowMask mapX) wi)) (row wi)
    &&& rowMask mapX wi

/-- `dilate2d`: `none` is the panic of `assert!(dx < 64)`. -/
def dilate (bb : Bitboard2D) (dx dy : Nat) : Option Bitboard2D :=
  if dx < 64 then
    some ⟨(List.range (bb.mapY * wordsPerRow bb.mapX)).map fun k =>
      xDilated (bb.yDilated dy (k / wordsPerRow bb.mapX)) bb.mapX dx (k % wordsPerRow bb.mapX),
      bb.mapX, bb.mapY⟩
  else none

/-- Set cells in row, word, bit order; bits beyond `map_x` are skipped. -/
def enumerate (bb : Bitboard2D) : List (Nat × Nat) :=
  (List.range bb.mapY).flatMap fun iy =>
    (List.range (wordsPerRow bb.mapX)).flatMap fun wi =>
      ((List.range 64).filter fun b => (bb.word iy wi).getLsbD b && wi * 64 + b < bb.mapX).map
        fun b => (wi * 64 + b, iy)

def orInplace (a b : Bitboard2D) : Bitboard2D :=
  { a with data := List.zipWith (· ||| ·) a.data b.data }

/-- Cell `(ix, iy)` is set. -/
def Mem (bb : Bitboard2D) (ix iy : Nat) : Prop :=
  (bb.word iy (ix / 64)).getLsbD (ix % 64) = true

/-- The storage has the length `new` gives it. -/
def Sized (bb : Bitboard2D) : Prop := bb.data.length = bb.mapY * wordsPerRow bb.mapX

end Bitboard2D

/-- Bit `x` of a row of words. -/
def rowBit (row : Nat → Word) (x : Nat) : Bool := (row (x / 64)).getLsbD (x % 64)

theorem div_lt_wordsPerRow {mapX x : Nat} (h : x < mapX) : x / 64 < wordsPerRow mapX := by
  unfold wordsPerRow; omega

theorem lowMask_bit {r j : Nat} (hr : r < 64) :
    ((1#64 <<< r) - 1#64).getLsbD j = decide (j < r) := by
  have hpow : 2 ^ r < 2 ^ 64 := Nat.pow_lt_pow_right (by decide) hr
  have hpos : 0 < 2 ^ r := Nat.two_pow_pos r
  have heq : (1#64 <<< r) - 1#64 = BitVec.ofNat 64 (2 ^ r - 1) := by
    apply BitVec.eq_of_toNat_eq
    have hs : (1#64 <<< r).toNat = 2 ^ r := by
      rw [BitVec.toNat_shiftLeft, Nat.shiftLeft_eq, BitVec.toNat_ofNat,
        Nat.mod_eq_of_lt (show 1 < 2 ^ 64 by decide), Nat.one_mul, Nat.mod_eq_of_lt hpow]
    rw [BitVec.toNat_sub, hs, BitVec.toNat_ofNat, BitVec.toNat_ofNat]
    omega
  rw [heq, BitVec.getLsbD_ofNat, Nat.testBit_two_pow_sub_one]
  by_cases hj : j < r
  · simp [hj, show j < 64 by omega]
  · simp [hj]

theorem rowMask_bit {mapX x : Nat} (hw : x / 64 < wordsPerRow mapX) :
    (rowMask mapX (x / 64)).getLsbD (x % 64) = decide (x < mapX) := by
  unfold rowMask wordsPerRow at *
  split
  · next h =>
    rw [lowMask_bit (Nat.mod_lt _ (by decide)), decide_eq_decide]
    omega
  · next h =>
    rw [BitVec.getLsbD_allOnes, decide_eq_decide]
    omega

theorem foldl_or_bit (f : Nat → Word) (n j : Nat) (init : Word) :
    ((List.range n).foldl (fun acc k => acc ||| f k) init).getLsbD j = true ↔
      init.getLsbD j = true ∨ ∃ k < n, (f k).getLsbD j = true := by
  induction n with
  | zero => simp
  | succ n ih =>
    rw [List.range_succ, List.foldl_append]
    simp only [List.foldl_cons, List.foldl_nil, BitVec.getLsbD_or, Bool.or_eq_true, ih]
    constructor
    · rintro ((h | ⟨k, hk, h⟩) | h)
      · exact Or.inl h
      · exact Or.inr ⟨k, by omega, h⟩
      · exact Or.inr ⟨n, by omega, h⟩
    · rintro (h | ⟨k, hk, h⟩)
      · exact Or.inl (Or.inl h)
      · rcases Nat.lt_succ_iff_lt_or_eq.mp hk with hk | rfl
        · exact Or.inl (Or.inr ⟨k, hk, h⟩)
        · exact Or.inr h

theorem shiftRow_bit_right {row : Nat → Word} {mapX x n : Nat} (h0 : 0 < n) (hn : n < 64)
    (hx : x < mapX) :
    (shiftRow row (wordsPerRow mapX) (-(n : Int)) (rowMask mapX) (x / 64)).getLsbD (x % 64) = true ↔
      (x + n) / 64 < wordsPerRow mapX ∧ rowBit row (x + n) = true := by
  have hw := div_lt_wordsPerRow hx
  have hmask := rowMask_bit (x := x) hw
  have hne : ¬ -(n : Int) = 0 := by omega
  have hle : ¬ 0 < -(n : Int) := by omega
  have hnat : (- -(n : Int)).toNat = n := by omega
  simp only [shiftRow, hne, hle, if_false, hnat, BitVec.getLsbD_and, hmask, hx, decide_true,
    Bool.and_true, BitVec.getLsbD_or, BitVec.getLsbD_ushiftRight, rowBit]
  by_cases hj : n + x % 64 < 64
  · have hdiv : (x + n) / 64 = x / 64 := by omega
    have hmod : (x + n) % 64 = n + x % 64 := by omega
    have hcarry : (if x / 64 + 1 < wordsPerRow mapX then row (x / 64 + 1) <<< (64 - n)
        else 0).getLsbD (x % 64) = false := by
      split
      · rw [BitVec.getLsbD_shiftLeft]
        simp [show x % 64 < 64 - n by omega]
      · simp
    rw [hcarry, Bool.or_false, hdiv, hmod]
    exact (and_iff_right hw).symm
  · have hdiv : (x + n) / 64 = x / 64 + 1 := by omega
    have hmod : (x + n) % 64 = x % 64 - (64 - n) := by omega
    have hself : (row (x / 64)).getLsbD (n + x % 64) = false :=
      BitVec.getLsbD_of_ge _ _ (by omega)
    rw [hdiv, hmod, hself, Bool.false_or]
    split
    · next hlt =>
      rw [BitVec.getLsbD_shiftLeft]
      simp [hlt, show x % 64 < 64 by omega, show ¬ x % 64 < 64 - n by omega]
    · next hlt => simp [hlt]

theorem shiftRow_bit_left {row : Nat → Word} {mapX x n : Nat} (h0 : 0 < n) (hn : n < 64)
    (hx : x < mapX) :
    (shiftRow row (wordsPerRow mapX) n (rowMask mapX) (x / 64)).getLsbD (x % 64) = true ↔
      n ≤ x ∧ rowBit row (x - n) = true := by
  have hw := div_lt_wordsPerRow hx
  have hmask := rowMask_bit (x := x) hw
  have hne : ¬ (n : Int) = 0 := by omega
  have hlt : 0 < (n : Int) := by omega
  have hnat : (n : Int).toNat = n := by omega
  simp only [shiftRow, hne, hlt, if_false, if_true, hnat, BitVec.getLsbD_and, hmask, hx,
    decide_true, Bool.and_true, BitVec.getLsbD_or, BitVec.getLsbD_shiftLeft, rowBit]
  by_cases hj : n ≤ x % 64
  · have hdiv : (x - n) / 64 = x / 64 := by omega
    have hmod : (x - n) % 64 = x % 64 - n := by omega
    have hcarry : (if 0 < x / 64 then row (x / 64 - 1) >>> (64 - n) else 0).getLsbD (x % 64)
        = false := by
      split
      · rw [BitVec.getLsbD_ushiftRight]
        exact BitVec.getLsbD_of_ge _ _ (by omega)
      · simp
    rw [hcarry, Bool.or_false, hdiv, hmod]
    simp [show ¬ x % 64 < n by omega, show n ≤ x by omega, Nat.mod_lt x (show 0 < 64 by decide)]
  · rw [decide_eq_true (show x % 64 < n by omega)]
    by_cases hx0 : 0 < x / 64
    · have hdiv : (x - n) / 64 = x / 64 - 1 := by omega
      have hmod : (x - n) % 64 = 64 - n + x % 64 := by omega
      rw [if_pos hx0, BitVec.getLsbD_ushiftRight, hdiv, hmod]
      simp [show n ≤ x by omega]
    · simp [hx0, show ¬ n ≤ x by omega]

/-- A row and its shifts by at most `dx`: bit `x` comes from a bit within `dx` of it. -/
theorem xDilated_bit {row : Nat → Word} {mapX dx x : Nat} (hdx : dx < 64) (hx : x < mapX) :
    (Bitboard2D.xDilated row mapX dx (x / 64)).getLsbD (x % 64) = true ↔
      ∃ y, y / 64 < wordsPerRow mapX ∧ rowBit row y = true ∧ y ≤ x + dx ∧ x ≤ y + dx := by
  have hw := div_lt_wordsPerRow hx
  have hmask := rowMask_bit (x := x) hw
  simp only [Bitboard2D.xDilated, BitVec.getLsbD_and, hmask, hx, decide_true, Bool.and_true,
    foldl_or_bit, BitVec.getLsbD_or, Bool.or_eq_true]
  constructor
  · rintro (h | ⟨k, hk, h | h⟩)
    · exact ⟨x, hw, h, by omega, by omega⟩
    · obtain ⟨hle, hb⟩ := (shiftRow_bit_left (by omega) (by omega) hx).mp h
      exact ⟨x - (k + 1), by omega, hb, by omega, by omega⟩
    · obtain ⟨hle, hb⟩ := (shiftRow_bit_right (by omega) (by omega) hx).mp h
      exact ⟨x + (k + 1), hle, hb, by omega, by omega⟩
  · rintro ⟨y, hy, hb, h1, h2⟩
    rcases Nat.lt_trichotomy x y with hlt | rfl | hlt
    · refine Or.inr ⟨y - x - 1, by omega, Or.inr ?_⟩
      have hy' : x + (y - x - 1 + 1) = y := by omega
      exact (shiftRow_bit_right (by omega) (by omega) hx).mpr (by rw [hy']; exact ⟨hy, hb⟩)
    · exact Or.inl hb
    · refine Or.inr ⟨x - y - 1, by omega, Or.inl ?_⟩
      have hy' : x - (x - y - 1 + 1) = y := by omega
      exact (shiftRow_bit_left (by omega) (by omega) hx).mpr (by rw [hy']; exact ⟨by omega, hb⟩)

theorem yDilated_bit {bb : Bitboard2D} {dy r wi j : Nat} (hr : r < bb.mapY) :
    (bb.yDilated dy r wi).getLsbD j = true ↔
      ∃ q < bb.mapY, (bb.word q wi).getLsbD j = true ∧ q ≤ r + dy ∧ r ≤ q + dy := by
  simp only [Bitboard2D.yDilated, foldl_or_bit, BitVec.getLsbD_or, Bool.or_eq_true]
  constructor
  · rintro (h | ⟨k, hk, h | h⟩)
    · exact ⟨r, hr, h, by omega, by omega⟩
    · by_cases hlt : r + (k + 1) < bb.mapY
      · rw [if_pos hlt] at h
        exact ⟨r + (k + 1), hlt, h, by omega, by omega⟩
      · simp [hlt] at h
    · by_cases hle : k + 1 ≤ r
      · rw [if_pos hle] at h
        exact ⟨r - (k + 1), by omega, h, by omega, by omega⟩
      · simp [hle] at h
  · rintro ⟨q, hq, hb, h1, h2⟩
    rcases Nat.lt_trichotomy q r with hlt | rfl | hlt
    · refine Or.inr ⟨r - q - 1, by omega, Or.inr ?_⟩
      rw [if_pos (by omega), show r - (r - q - 1 + 1) = q by omega]
      exact hb
    · exact Or.inl hb
    · refine Or.inr ⟨q - r - 1, by omega, Or.inl ?_⟩
      rw [if_pos (by omega), show r + (q - r - 1 + 1) = q by omega]
      exact hb

namespace Bitboard2D

variable {bb : Bitboard2D}

theorem word_index {mapX iy wi : Nat} {mapY : Nat} (hy : iy < mapY) (hw : wi < wordsPerRow mapX) :
    iy * wordsPerRow mapX + wi < mapY * wordsPerRow mapX := by
  have h : (iy + 1) * wordsPerRow mapX ≤ mapY * wordsPerRow mapX :=
    Nat.mul_le_mul_right _ (by omega)
  rw [Nat.add_mul] at h
  omega

theorem word_index_inj {w a b c d : Nat} (hb : b < w) (hd : d < w) (h : a * w + b = c * w + d) :
    a = c ∧ b = d := by
  have hw : 0 < w := by omega
  have h1 := congrArg (· / w) h
  have h2 := congrArg (· % w) h
  simp only [Nat.add_comm _ b, Nat.add_comm _ d, Nat.add_mul_div_right _ _ hw,
    Nat.div_eq_of_lt hb, Nat.div_eq_of_lt hd, Nat.zero_add] at h1
  simp only [Nat.add_comm _ b, Nat.add_comm _ d, Nat.add_mul_mod_self_right,
    Nat.mod_eq_of_lt hb, Nat.mod_eq_of_lt hd] at h2
  exact ⟨h1, h2⟩

@[simp] theorem sized_new (mapX mapY : Nat) : (new mapX mapY).Sized := by
  simp [Sized, new]

theorem not_mem_new (mapX mapY x y : Nat) : ¬ (new mapX mapY).Mem x y := by
  have hword (i : Nat) : (List.replicate (mapY * wordsPerRow mapX) (0 : Word)).getD i 0 = 0 := by
    rw [List.getD_eq_getElem?_getD, List.getElem?_replicate]
    split <;> rfl
  simp only [Mem, word, new, hword]
  simp

theorem Sized.set (h : bb.Sized) (x y : Nat) : (bb.set x y).Sized := by
  simp only [Sized, Bitboard2D.set, List.length_set]
  exact h

theorem mem_set_word (h : bb.Sized) {x y x' y' : Nat} (hx : x < bb.mapX) (hy : y < bb.mapY)
    (hw' : x' / 64 < wordsPerRow bb.mapX) :
    (bb.set x y).Mem x' y' ↔ (x' = x ∧ y' = y) ∨ bb.Mem x' y' := by
  have hw := div_lt_wordsPerRow hx
  have hlt : y * wordsPerRow bb.mapX + x / 64 < bb.data.length := by
    rw [h]; exact word_index hy hw
  simp only [Mem, word, set, List.getD_eq_getElem?_getD, List.getElem?_set]
  by_cases hidx : y * wordsPerRow bb.mapX + x / 64 = y' * wordsPerRow bb.mapX + x' / 64
  · obtain ⟨hyy, hxx⟩ := word_index_inj hw hw' hidx
    have h64 : x' % 64 < 64 := Nat.mod_lt _ (by decide)
    rw [if_pos hidx, if_pos hlt, ← hidx]
    simp only [Option.getD_some, BitVec.getLsbD_or, BitVec.getLsbD_shiftLeft, BitVec.getLsbD_one,
      Bool.or_eq_true, Bool.and_eq_true, decide_eq_true_eq, Bool.not_eq_true', decide_eq_false_iff_not]
    constructor
    · rintro (hb | ⟨⟨_, hge⟩, _, hz⟩)
      · exact Or.inr hb
      · exact Or.inl ⟨by omega, by omega⟩
    · rintro (⟨hxeq, _⟩ | hb)
      · exact Or.inr ⟨⟨h64, by omega⟩, by omega, by omega⟩
      · exact Or.inl hb
  · rw [if_neg hidx]
    constructor
    · exact Or.inr
    · rintro (⟨rfl, rfl⟩ | hb)
      · exact absurd rfl hidx
      · exact hb

theorem mem_set (h : bb.Sized) {x y x' y' : Nat} (hx : x < bb.mapX) (hy : y < bb.mapY)
    (hx' : x' < bb.mapX) : (bb.set x y).Mem x' y' ↔ (x' = x ∧ y' = y) ∨ bb.Mem x' y' :=
  mem_set_word h hx hy (div_lt_wordsPerRow hx')

/-- The board holding exactly the cells of a list. -/
def ofCells (mapX mapY : Nat) (cells : List (Nat × Nat)) : Bitboard2D :=
  cells.foldl (fun bb c => bb.set c.1 c.2) (new mapX mapY)

theorem foldl_set_spec (cells : List (Nat × Nat)) : ∀ (bb : Bitboard2D), bb.Sized →
    (∀ c ∈ cells, c.1 < bb.mapX ∧ c.2 < bb.mapY) →
    let r := cells.foldl (fun bb c => bb.set c.1 c.2) bb
    r.Sized ∧ r.mapX = bb.mapX ∧ r.mapY = bb.mapY ∧
      ∀ x y, x < bb.mapX → (r.Mem x y ↔ (x, y) ∈ cells ∨ bb.Mem x y) := by
  induction cells with
  | nil => intro bb h _; exact ⟨h, rfl, rfl, by simp⟩
  | cons c cells ih =>
    intro bb h hin
    have hc := hin c List.mem_cons_self
    obtain ⟨h1, h2, h3, h4⟩ := ih (bb.set c.1 c.2) (h.set c.1 c.2)
      fun d hd => hin d (List.mem_cons_of_mem _ hd)
    refine ⟨h1, h2, h3, ?_⟩
    intro x y hx
    rw [List.foldl_cons, h4 x y hx, mem_set h hc.1 hc.2 hx, List.mem_cons, Prod.ext_iff]
    tauto

theorem mem_ofCells {mapX mapY : Nat} {cells : List (Nat × Nat)}
    (h : ∀ c ∈ cells, c.1 < mapX ∧ c.2 < mapY) {x y : Nat} (hx : x < mapX) :
    (ofCells mapX mapY cells).Mem x y ↔ (x, y) ∈ cells := by
  have hspec := (foldl_set_spec cells (new mapX mapY) (sized_new _ _) h).2.2.2 x y hx
  rw [ofCells, hspec]
  simp [not_mem_new]

theorem dims_ofCells {mapX mapY : Nat} {cells : List (Nat × Nat)}
    (h : ∀ c ∈ cells, c.1 < mapX ∧ c.2 < mapY) : (ofCells mapX mapY cells).Sized ∧
      (ofCells mapX mapY cells).mapX = mapX ∧ (ofCells mapX mapY cells).mapY = mapY := by
  have hspec := foldl_set_spec cells (new mapX mapY) (sized_new _ _) h
  exact ⟨hspec.1, hspec.2.1, hspec.2.2.1⟩

/-- What dilation computes: the cells within `dx` columns and `dy` rows of a set bit. -/
theorem mem_dilate {out : Bitboard2D} {dx dy : Nat} (h : bb.dilate dx dy = some out) {x y : Nat}
    (hx : x < bb.mapX) (hy : y < bb.mapY) : out.Mem x y ↔
      ∃ x' y', x' / 64 < wordsPerRow bb.mapX ∧ y' < bb.mapY ∧ bb.Mem x' y' ∧
        (x' ≤ x + dx ∧ x ≤ x' + dx) ∧ y' ≤ y + dy ∧ y ≤ y' + dy := by
  unfold dilate at h
  split at h
  · next hdx =>
    cases h
    have hw := div_lt_wordsPerRow hx
    have hidx := word_index hy hw
    have hpos : 0 < wordsPerRow bb.mapX := by omega
    have hdiv : (y * wordsPerRow bb.mapX + x / 64) / wordsPerRow bb.mapX = y := by
      rw [Nat.add_comm, Nat.add_mul_div_right _ _ hpos, Nat.div_eq_of_lt hw, Nat.zero_add]
    have hmod : (y * wordsPerRow bb.mapX + x / 64) % wordsPerRow bb.mapX = x / 64 := by
      rw [Nat.add_comm, Nat.add_mul_mod_self_right, Nat.mod_eq_of_lt hw]
    simp only [Mem, word, List.getD_eq_getElem?_getD, List.getElem?_map,
      List.getElem?_range hidx, Option.map_some, Option.getD_some, hdiv, hmod]
    rw [xDilated_bit hdx hx]
    simp only [rowBit, yDilated_bit hy]
    constructor
    · rintro ⟨x', hx', ⟨y', hy', hb, h1, h2⟩, h3, h4⟩
      exact ⟨x', y', hx', hy', hb, ⟨h3, h4⟩, h1, h2⟩
    · rintro ⟨x', y', hx', hy', hb, ⟨h3, h4⟩, h1, h2⟩
      exact ⟨x', hx', ⟨y', hy', hb, h1, h2⟩, h3, h4⟩
  · cases h

theorem dilate_dims {out : Bitboard2D} {dx dy : Nat} (h : bb.dilate dx dy = some out) :
    out.Sized ∧ out.mapX = bb.mapX ∧ out.mapY = bb.mapY := by
  unfold dilate at h
  split at h
  · cases h
    exact ⟨by simp [Sized], rfl, rfl⟩
  · cases h

theorem dilate_isSome {dx : Nat} (h : dx < 64) (bb : Bitboard2D) (dy : Nat) :
    ∃ out, bb.dilate dx dy = some out := by
  unfold dilate
  rw [if_pos h]
  exact ⟨_, rfl⟩

theorem mem_enumerate {x y : Nat} :
    (x, y) ∈ bb.enumerate ↔ x < bb.mapX ∧ y < bb.mapY ∧ bb.Mem x y := by
  simp only [enumerate, List.mem_flatMap, List.mem_range, List.mem_map, List.mem_filter,
    Bool.and_eq_true, decide_eq_true_eq, Prod.mk.injEq, Mem]
  constructor
  · rintro ⟨iy, hiy, wi, hwi, b, ⟨hb, hbit, hlt⟩, rfl, rfl⟩
    have hdiv : (wi * 64 + b) / 64 = wi := by omega
    have hmod : (wi * 64 + b) % 64 = b := by omega
    rw [hdiv, hmod]
    exact ⟨hlt, hiy, hbit⟩
  · rintro ⟨hx, hy, hm⟩
    exact ⟨y, hy, x / 64, div_lt_wordsPerRow hx, x % 64, ⟨Nat.mod_lt _ (by decide), hm, by omega⟩,
      by omega, rfl⟩

theorem nodup_enumerate : bb.enumerate.Nodup := by
  have hword {iy wi : Nat} : (((List.range 64).filter fun b =>
      (bb.word iy wi).getLsbD b && wi * 64 + b < bb.mapX).map
        fun b => (wi * 64 + b, iy)).Nodup := by
    refine List.Nodup.map ?_ (List.nodup_range.filter _)
    intro a b h
    simpa using h
  refine List.nodup_flatMap.mpr ⟨?_, ?_⟩
  · intro iy _
    refine List.nodup_flatMap.mpr ⟨fun wi _ => hword, List.nodup_range.imp ?_⟩
    intro a b hab c hc hd
    simp only [List.mem_map, List.mem_filter, List.mem_range] at hc hd
    obtain ⟨i, ⟨hi, _⟩, rfl⟩ := hc
    obtain ⟨j, ⟨hj, _⟩, heq⟩ := hd
    have := congrArg Prod.fst heq
    simp only at this
    omega
  · refine List.nodup_range.imp ?_
    intro a b hab c hc hd
    simp only [List.mem_flatMap, List.mem_map] at hc hd
    obtain ⟨_, _, _, _, rfl⟩ := hc
    obtain ⟨_, _, _, _, heq⟩ := hd
    exact hab (congrArg Prod.snd heq).symm

/-- A board whose count is zero holds no cell. -/
theorem not_mem_of_popcount {x y : Nat} (h : bb.popcount = 0) : ¬ bb.Mem x y := by
  intro hm
  have hzero := List.sum_eq_zero_iff_forall_eq_nat.mp h
  by_cases hlt : y * wordsPerRow bb.mapX + x / 64 < bb.data.length
  · have hmem : bb.word y (x / 64) ∈ bb.data := by
      simp [word, List.getD_eq_getElem?_getD, hlt]
    have hc := hzero _ (List.mem_map_of_mem hmem)
    have hnot := List.countP_eq_zero.mp hc (x % 64) (List.mem_range.mpr (Nat.mod_lt _ (by decide)))
    exact hnot hm
  · simp [Mem, word, List.getD_eq_getElem?_getD, hlt] at hm

theorem mem_orInplace {a b : Bitboard2D} (ha : a.Sized) (hb : b.Sized) (hx : a.mapX = b.mapX)
    (hy : a.mapY = b.mapY) {x y : Nat} :
    (a.orInplace b).Mem x y ↔ a.Mem x y ∨ b.Mem x y := by
  have hlen : a.data.length = b.data.length := by rw [ha, hb, hx, hy]
  simp only [Mem, word, orInplace, hx, List.getD_eq_getElem?_getD, List.getElem?_zipWith]
  by_cases hlt : y * wordsPerRow b.mapX + x / 64 < b.data.length
  · have hlt' : y * wordsPerRow b.mapX + x / 64 < a.data.length := by omega
    simp [hlt, hlt']
  · have hlt' : ¬ y * wordsPerRow b.mapX + x / 64 < a.data.length := by omega
    simp [hlt, hlt']

end Bitboard2D

/-- Theta-major storage: one board per heading. -/
abbrev Bitboard3D := List Bitboard2D

/-- Layer `it` or-ed with the layers up to `dt` headings away, cyclically. -/
def thetaMerge (temp : Bitboard3D) (dt it : Nat) : Bitboard2D :=
  let nt := temp.length
  (List.range dt).foldl (fun acc k =>
    (acc.orInplace (temp.getD ((it + (k + 1)) % nt) (Bitboard2D.new 0 0))).orInplace
      (temp.getD ((it + nt - (k + 1)) % nt) (Bitboard2D.new 0 0)))
    (temp.getD it (Bitboard2D.new 0 0))

namespace Bitboard3D

def new (mapX mapY nTheta : Nat) : Bitboard3D :=
  List.replicate nTheta (Bitboard2D.new mapX mapY)

def layer (bb : Bitboard3D) (it : Nat) : Bitboard2D := bb.getD it (Bitboard2D.new 0 0)

def set (bb : Bitboard3D) (ix iy it : Nat) : Bitboard3D :=
  List.set bb it ((bb.layer it).set ix iy)

def popcount (bb : Bitboard3D) : Nat := (List.map (·.popcount) bb).sum

/-- `dilate3d`: every layer in the plane, then the cyclic merge over headings. -/
def dilate (bb : Bitboard3D) (dx dy dt : Nat) : Option Bitboard3D :=
  (List.mapM (fun b : Bitboard2D => b.dilate dx dy) bb).map fun temp =>
    (List.range temp.length).map fun it => thetaMerge temp dt it

def enumerate (bb : Bitboard3D) : List (Nat × Nat × Nat) :=
  (List.range bb.length).flatMap fun it =>
    (bb.layer it).enumerate.map fun c => (c.1, c.2, it)

def Mem (bb : Bitboard3D) (ix iy it : Nat) : Prop := (bb.layer it).Mem ix iy

/-- `nTheta` layers, each of the size of the map. -/
structure Sized (bb : Bitboard3D) (mapX mapY nTheta : Nat) : Prop where
  length_eq : bb.length = nTheta
  layers : ∀ b ∈ bb, b.Sized ∧ b.mapX = mapX ∧ b.mapY = mapY

end Bitboard3D

/-- Headings at cyclic distance at most `dt`, as the two merges enumerate them. -/
def ThetaNear (nt dt t t' : Nat) : Prop := ∃ k ≤ dt, t' = (t + k) % nt ∨ t' = (t + nt - k) % nt

theorem mem_thetaMerge {temp : Bitboard3D} {mapX mapY : Nat}
    (hs : ∀ b ∈ temp, b.Sized ∧ b.mapX = mapX ∧ b.mapY = mapY) {it : Nat} (hit : it < temp.length)
    (dt : Nat) : ((thetaMerge temp dt it).Sized ∧ (thetaMerge temp dt it).mapX = mapX ∧
      (thetaMerge temp dt it).mapY = mapY) ∧ ∀ x y, (thetaMerge temp dt it).Mem x y ↔
      ∃ t', ThetaNear temp.length dt it t' ∧ (temp.getD t' (Bitboard2D.new 0 0)).Mem x y := by
  have hnt : 0 < temp.length := by omega
  have hget {i : Nat} (hi : i < temp.length) : temp.getD i (Bitboard2D.new 0 0) ∈ temp := by
    simp [List.getD_eq_getElem?_getD, hi]
  induction dt with
  | zero =>
    refine ⟨hs _ (hget hit), ?_⟩
    intro x y
    have hmod : it % temp.length = it := Nat.mod_eq_of_lt hit
    constructor
    · intro h
      exact ⟨it, ⟨0, le_refl 0, Or.inl (by simp [hmod])⟩, h⟩
    · rintro ⟨t', ⟨k, hk, ht⟩, hm⟩
      obtain rfl : k = 0 := by omega
      have : t' = it := by simpa [hmod] using ht
      rw [this] at hm
      exact hm
  | succ dt ih =>
    obtain ⟨⟨h1, h2, h3⟩, hmem⟩ := ih
    have hplus := hs _ (hget (Nat.mod_lt (it + (dt + 1)) hnt))
    have hminus := hs _ (hget (Nat.mod_lt (it + temp.length - (dt + 1)) hnt))
    have hstep : thetaMerge temp (dt + 1) it = ((thetaMerge temp dt it).orInplace
        (temp.getD ((it + (dt + 1)) % temp.length) (Bitboard2D.new 0 0))).orInplace
        (temp.getD ((it + temp.length - (dt + 1)) % temp.length) (Bitboard2D.new 0 0)) := by
      simp only [thetaMerge, List.range_succ, List.foldl_append, List.foldl_cons, List.foldl_nil]
    have hor (a b : Bitboard2D) (ha : a.Sized ∧ a.mapX = mapX ∧ a.mapY = mapY)
        (hb : b.Sized ∧ b.mapX = mapX ∧ b.mapY = mapY) :
        (a.orInplace b).Sized ∧ (a.orInplace b).mapX = mapX ∧ (a.orInplace b).mapY = mapY := by
      refine ⟨?_, ha.2.1, ha.2.2⟩
      have hla : a.data.length = mapY * wordsPerRow mapX := by rw [ha.1, ha.2.1, ha.2.2]
      have hlb : b.data.length = mapY * wordsPerRow mapX := by rw [hb.1, hb.2.1, hb.2.2]
      simp [Bitboard2D.Sized, Bitboard2D.orInplace, hla, hlb, ha.2.1, ha.2.2]
    have hfirst := hor _ _ ⟨h1, h2, h3⟩ hplus
    rw [hstep]
    refine ⟨hor _ _ hfirst hminus, ?_⟩
    intro x y
    rw [Bitboard2D.mem_orInplace hfirst.1 hminus.1 (by rw [hfirst.2.1, hminus.2.1])
      (by rw [hfirst.2.2, hminus.2.2]), Bitboard2D.mem_orInplace h1 hplus.1
      (by rw [h2, hplus.2.1]) (by rw [h3, hplus.2.2]), hmem]
    constructor
    · rintro ((⟨t', ⟨k, hk, ht⟩, hm⟩ | hm) | hm)
      · exact ⟨t', ⟨k, by omega, ht⟩, hm⟩
      · exact ⟨_, ⟨dt + 1, le_refl _, Or.inl rfl⟩, hm⟩
      · exact ⟨_, ⟨dt + 1, le_refl _, Or.inr rfl⟩, hm⟩
    · rintro ⟨t', ⟨k, hk, ht⟩, hm⟩
      by_cases hkd : k ≤ dt
      · exact Or.inl (Or.inl ⟨t', ⟨k, hkd, ht⟩, hm⟩)
      · obtain rfl : k = dt + 1 := by omega
        rcases ht with rfl | rfl
        · exact Or.inl (Or.inr hm)
        · exact Or.inr hm

namespace Bitboard3D

variable {bb : Bitboard3D} {mapX mapY nt : Nat}

theorem layer_mem {it : Nat} (h : it < bb.length) : bb.layer it ∈ bb := by
  simp [layer, List.getD_eq_getElem?_getD, h]

theorem sized_new (mapX mapY nt : Nat) : (new mapX mapY nt).Sized mapX mapY nt := by
  refine ⟨by simp [new], ?_⟩
  intro b hb
  rw [List.eq_of_mem_replicate hb]
  exact ⟨Bitboard2D.sized_new mapX mapY, rfl, rfl⟩

theorem not_mem_new (x y t : Nat) : ¬ (new mapX mapY nt).Mem x y t := by
  simp only [Mem, layer, new, List.getD_eq_getElem?_getD, List.getElem?_replicate]
  split
  · exact Bitboard2D.not_mem_new _ _ _ _
  · exact Bitboard2D.not_mem_new _ _ _ _

theorem Sized.set (h : bb.Sized mapX mapY nt) {x y t : Nat} (ht : t < nt) :
    (bb.set x y t).Sized mapX mapY nt := by
  have hl := h.layers _ (layer_mem (by rw [h.length_eq]; exact ht))
  refine ⟨by simp [Bitboard3D.set, h.length_eq], ?_⟩
  intro b hb
  rcases List.mem_or_eq_of_mem_set hb with hb | rfl
  · exact h.layers b hb
  · exact ⟨hl.1.set x y, hl.2.1, hl.2.2⟩

theorem mem_set (h : bb.Sized mapX mapY nt) {x y t x' y' t' : Nat} (hx : x < mapX) (hy : y < mapY)
    (ht : t < nt) (hx' : x' < mapX) :
    (bb.set x y t).Mem x' y' t' ↔ (x' = x ∧ y' = y ∧ t' = t) ∨ bb.Mem x' y' t' := by
  have hlt : t < bb.length := by rw [h.length_eq]; exact ht
  have hl := h.layers _ (layer_mem hlt)
  by_cases htt : t = t'
  · subst htt
    have hself : (bb.set x y t).layer t = (bb.layer t).set x y := by
      simp [layer, Bitboard3D.set, List.getD_eq_getElem?_getD, hlt]
    rw [Mem, hself, Bitboard2D.mem_set hl.1 (by rw [hl.2.1]; exact hx) (by rw [hl.2.2]; exact hy)
      (by rw [hl.2.1]; exact hx')]
    simp only [Mem, and_true]
  · have hother : (bb.set x y t).layer t' = bb.layer t' := by
      simp [layer, Bitboard3D.set, List.getD_eq_getElem?_getD, List.getElem?_set_ne htt]
    rw [Mem, hother]
    constructor
    · exact Or.inr
    · rintro (⟨_, _, rfl⟩ | hm)
      · exact absurd rfl htt
      · exact hm

/-- The boards holding exactly the cells of a list. -/
def ofCells (mapX mapY nt : Nat) (cells : List (Nat × Nat × Nat)) : Bitboard3D :=
  cells.foldl (fun bb c => bb.set c.1 c.2.1 c.2.2) (new mapX mapY nt)

theorem foldl_set_spec (cells : List (Nat × Nat × Nat)) : ∀ (bb : Bitboard3D),
    bb.Sized mapX mapY nt → (∀ c ∈ cells, c.1 < mapX ∧ c.2.1 < mapY ∧ c.2.2 < nt) →
    let r := cells.foldl (fun (bb : Bitboard3D) c => bb.set c.1 c.2.1 c.2.2) bb
    Sized r mapX mapY nt ∧
      ∀ x y t, x < mapX → (Mem r x y t ↔ (x, y, t) ∈ cells ∨ bb.Mem x y t) := by
  induction cells with
  | nil => intro bb h _; exact ⟨h, by simp⟩
  | cons c cells ih =>
    intro bb h hin
    have hc := hin c List.mem_cons_self
    obtain ⟨h1, h2⟩ := ih (bb.set c.1 c.2.1 c.2.2) (h.set hc.2.2)
      fun d hd => hin d (List.mem_cons_of_mem _ hd)
    refine ⟨h1, ?_⟩
    intro x y t hx
    rw [List.foldl_cons, h2 x y t hx, mem_set h hc.1 hc.2.1 hc.2.2 hx, List.mem_cons,
      Prod.ext_iff, Prod.ext_iff]
    tauto

theorem ofCells_spec {cells : List (Nat × Nat × Nat)}
    (h : ∀ c ∈ cells, c.1 < mapX ∧ c.2.1 < mapY ∧ c.2.2 < nt) :
    (ofCells mapX mapY nt cells).Sized mapX mapY nt ∧
      ∀ x y t, x < mapX → ((ofCells mapX mapY nt cells).Mem x y t ↔ (x, y, t) ∈ cells) := by
  obtain ⟨h1, h2⟩ := foldl_set_spec cells (new mapX mapY nt) (sized_new _ _ _) h
  refine ⟨h1, ?_⟩
  intro x y t hx
  rw [ofCells, h2 x y t hx]
  simp [not_mem_new]

theorem mapM_dilate_spec {dx dy : Nat} : ∀ {bb out : Bitboard3D},
    List.mapM (fun b : Bitboard2D => b.dilate dx dy) bb = some out →
      out.length = bb.length ∧ ∀ t, t < bb.length → (bb.layer t).dilate dx dy = some (out.layer t)
  | [], out, h => by
    rw [List.mapM_nil] at h
    cases h
    exact ⟨rfl, fun t ht => by simp at ht⟩
  | b :: bb, out, h => by
    rw [List.mapM_cons] at h
    cases hb : b.dilate dx dy with
    | none => rw [hb] at h; cases h
    | some b' =>
      cases hbb : List.mapM (fun b : Bitboard2D => b.dilate dx dy) bb with
      | none => rw [hb, hbb] at h; cases h
      | some bb' =>
        rw [hb, hbb] at h
        cases h
        obtain ⟨h1, h2⟩ := mapM_dilate_spec hbb
        refine ⟨by simp [h1], ?_⟩
        intro t ht
        cases t with
        | zero => exact hb
        | succ t => exact h2 t (by simpa using ht)

/-- Dilation in the plane and over headings: the cells within the box of a set cell. -/
theorem mem_dilate {out : Bitboard3D} {dx dy dt : Nat} (hs : bb.Sized mapX mapY nt)
    (h : bb.dilate dx dy dt = some out) : out.Sized mapX mapY nt ∧
      ∀ x y t, x < mapX → y < mapY → t < nt → (out.Mem x y t ↔
        ∃ x' y' t', x' / 64 < wordsPerRow mapX ∧ y' < mapY ∧ ThetaNear nt dt t t' ∧
          bb.Mem x' y' t' ∧ (x' ≤ x + dx ∧ x ≤ x' + dx) ∧ y' ≤ y + dy ∧ y ≤ y' + dy) := by
  unfold dilate at h
  cases htemp : List.mapM (fun b : Bitboard2D => b.dilate dx dy) bb with
  | none => rw [htemp] at h; cases h
  | some temp =>
    rw [htemp] at h
    cases h
    obtain ⟨hlen, hlayer⟩ := mapM_dilate_spec htemp
    have hnt : temp.length = nt := hlen.trans hs.length_eq
    have htemp_sized : ∀ b ∈ temp, b.Sized ∧ b.mapX = mapX ∧ b.mapY = mapY := by
      intro b hb
      obtain ⟨t, ht, rfl⟩ := List.getElem_of_mem hb
      have hl := hlayer t (by omega)
      have hget : Bitboard3D.layer temp t = temp[t] := by
        simp [layer, List.getD_eq_getElem?_getD, ht]
      rw [hget] at hl
      have hd := Bitboard2D.dilate_dims hl
      have hb := hs.layers _ (layer_mem (show t < bb.length by omega))
      exact ⟨hd.1, hd.2.1.trans hb.2.1, hd.2.2.trans hb.2.2⟩
    have hout (t : Nat) (ht : t < nt) : Bitboard3D.layer
        ((List.range temp.length).map fun it => thetaMerge temp dt it) t
          = thetaMerge temp dt t := by
      simp [layer, List.getD_eq_getElem?_getD, show t < temp.length by omega]
    refine ⟨⟨by simp [hnt], ?_⟩, ?_⟩
    · intro b hb
      obtain ⟨t, ht, rfl⟩ := List.mem_map.mp hb
      exact (mem_thetaMerge htemp_sized (List.mem_range.mp ht) dt).1
    · intro x y t hx hy ht
      rw [Mem, hout t ht, (mem_thetaMerge htemp_sized (by omega) dt).2, hnt]
      have hplane (t' : Nat) (ht' : t' < nt) : (temp.getD t' (Bitboard2D.new 0 0)).Mem x y ↔
          ∃ x' y', x' / 64 < wordsPerRow mapX ∧ y' < mapY ∧ (bb.layer t').Mem x' y' ∧
            (x' ≤ x + dx ∧ x ≤ x' + dx) ∧ y' ≤ y + dy ∧ y ≤ y' + dy := by
        have hb := hs.layers _ (layer_mem (show t' < bb.length by rw [hs.length_eq]; exact ht'))
        have := Bitboard2D.mem_dilate (hlayer t' (by rw [hs.length_eq]; exact ht'))
          (x := x) (y := y) (by rw [hb.2.1]; exact hx) (by rw [hb.2.2]; exact hy)
        rw [hb.2.1, hb.2.2] at this
        exact this
      have hnear {t' : Nat} (h : ThetaNear nt dt t t') : t' < nt := by
        obtain ⟨k, _, rfl | rfl⟩ := h
        · exact Nat.mod_lt _ (by omega)
        · exact Nat.mod_lt _ (by omega)
      constructor
      · rintro ⟨t', hn, hm⟩
        obtain ⟨x', y', h1, h2, h3, h4⟩ := (hplane t' (hnear hn)).mp hm
        exact ⟨x', y', t', h1, h2, hn, h3, h4⟩
      · rintro ⟨x', y', t', h1, h2, hn, h3, h4⟩
        exact ⟨t', hn, (hplane t' (hnear hn)).mpr ⟨x', y', h1, h2, h3, h4⟩⟩

theorem mem_enumerate (hs : bb.Sized mapX mapY nt) {x y t : Nat} :
    (x, y, t) ∈ bb.enumerate ↔ x < mapX ∧ y < mapY ∧ t < nt ∧ bb.Mem x y t := by
  simp only [enumerate, List.mem_flatMap, List.mem_range, List.mem_map, Prod.exists,
    Bitboard2D.mem_enumerate, Prod.mk.injEq, hs.length_eq]
  constructor
  · rintro ⟨it, hit, x', y', ⟨h1, h2, h3⟩, rfl, rfl, rfl⟩
    have hb := hs.layers _ (layer_mem (show it < bb.length by rw [hs.length_eq]; exact hit))
    exact ⟨hb.2.1 ▸ h1, hb.2.2 ▸ h2, hit, h3⟩
  · rintro ⟨hx, hy, ht, hm⟩
    have hb := hs.layers _ (layer_mem (show t < bb.length by rw [hs.length_eq]; exact ht))
    exact ⟨t, ht, x, y, ⟨by rw [hb.2.1]; exact hx, by rw [hb.2.2]; exact hy, hm⟩, rfl, rfl, rfl⟩

theorem not_mem_of_popcount {x y t : Nat} (h : bb.popcount = 0) : ¬ bb.Mem x y t := by
  by_cases ht : t < bb.length
  · have hz := List.sum_eq_zero_iff_forall_eq_nat.mp h _
      (List.mem_map_of_mem (f := fun b : Bitboard2D => b.popcount) (layer_mem ht))
    exact Bitboard2D.not_mem_of_popcount hz
  · have hdef : bb.layer t = Bitboard2D.new 0 0 := by
      simp [layer, List.getD_eq_getElem?_getD, List.getElem?_eq_none (not_lt.mp ht)]
    rw [Mem, hdef]
    exact Bitboard2D.not_mem_new _ _ _ _

end Bitboard3D

end ValueIteration
