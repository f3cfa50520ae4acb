import ValueIteration.Bitboard

/-!
# The packed 3-D board

A 3-D bitboard keeps the words of all layers in one vector, theta-major, then row-major. Its
layers are the 2-D boards that the solvers work with. `new` computes the number of words in
`u32`, so on a board that has its words no index wraps.
-/

set_option autoImplicit false

namespace ValueIteration

namespace Bitboard2D

variable {a b : Bitboard2D}

/-- No word of the board has a bit beyond the map width. -/
def Clean (bb : Bitboard2D) : Prop :=
  ∀ x y, x / 64 < wordsPerRow bb.mapX → y < bb.mapY → bb.Mem x y → x < bb.mapX

/-- A board with storage is its dimensions and its bits. -/
theorem eq_of_mem (ha : a.Sized) (hb : b.Sized) (hX : a.mapX = b.mapX) (hY : a.mapY = b.mapY)
    (h : ∀ x y, x / 64 < wordsPerRow b.mapX → y < b.mapY → (a.Mem x y ↔ b.Mem x y)) : a = b := by
  have hlen : a.data.length = b.data.length := by rw [ha, hb, hX, hY]
  have hdata : a.data = b.data := by
    apply List.ext_getElem hlen
    intro k hk hk'
    apply BitVec.eq_of_getLsbD_eq
    intro j hj
    rw [hb] at hk'
    have hwpr : 0 < wordsPerRow b.mapX := by
      rcases Nat.eq_zero_or_pos (wordsPerRow b.mapX) with h0 | h0
      · rw [h0] at hk'
        omega
      · exact h0
    have hrow : k / wordsPerRow b.mapX < b.mapY := Nat.div_lt_of_lt_mul (by rwa [Nat.mul_comm])
    have hcol : k % wordsPerRow b.mapX < wordsPerRow b.mapX := Nat.mod_lt _ hwpr
    have hdiv : (k % wordsPerRow b.mapX * 64 + j) / 64 = k % wordsPerRow b.mapX := by omega
    have hmod : (k % wordsPerRow b.mapX * 64 + j) % 64 = j := by omega
    have hmem := h (k % wordsPerRow b.mapX * 64 + j) (k / wordsPerRow b.mapX)
      (by rw [hdiv]; exact hcol) hrow
    have hk'' : k < b.data.length := by rwa [hb]
    simp only [Mem, word, hX, hdiv, hmod, Nat.div_add_mod', List.getD_eq_getElem?_getD,
      List.getElem?_eq_getElem hk, List.getElem?_eq_getElem hk'', Option.getD_some] at hmem
    exact Bool.eq_iff_iff.mpr hmem
  cases a
  cases b
  simp_all

theorem clean_new (mapX mapY : Nat) : (new mapX mapY).Clean :=
  fun x y _ _ hmem => absurd hmem (not_mem_new mapX mapY x y)

theorem Clean.set {bb : Bitboard2D} (h : bb.Clean) (hs : bb.Sized) {x y : Nat} (hx : x < bb.mapX)
    (hy : y < bb.mapY) : (bb.set x y).Clean := by
  intro x' y' hx' hy' hmem
  rcases (mem_set_word hs hx hy hx').mp hmem with ⟨rfl, _⟩ | hmem
  · exact hx
  · exact h x' y' hx' hy' hmem

end Bitboard2D

namespace Packed

structure Bitboard3D where
  data : List Word
  mapX : Nat
  mapY : Nat
  nTheta : Nat
  deriving DecidableEq, Repr

namespace Bitboard3D

variable (bb : Bitboard3D)

def new (mapX mapY nTheta : Nat) : Bitboard3D :=
  ⟨List.replicate (nTheta * mapY * wordsPerRow mapX) 0, mapX, mapY, nTheta⟩

/-- Stride in words between consecutive layers. -/
def layerStride : Nat := bb.mapY * wordsPerRow bb.mapX

def wordIndex (it iy wi : Nat) : Nat :=
  it * bb.mapY * wordsPerRow bb.mapX + iy * wordsPerRow bb.mapX + wi

def set (ix iy it : Nat) : Bitboard3D :=
  let idx := bb.wordIndex it iy (ix / 64)
  { bb with data := bb.data.set idx (bb.data.getD idx 0 ||| (1#64 <<< (ix % 64))) }

def popcount : Nat := (bb.data.map fun w => (List.range 64).countP fun b => w.getLsbD b).sum

/-- The slice of a layer. -/
def layer (it : Nat) : Bitboard2D :=
  ⟨(bb.data.drop (it * bb.layerStride)).take bb.layerStride, bb.mapX, bb.mapY⟩

def layers : ValueIteration.Bitboard3D := (List.range bb.nTheta).map bb.layer

/-- Cell `(ix, iy, it)` is set. -/
def Mem (ix iy it : Nat) : Prop :=
  (bb.data.getD (bb.wordIndex it iy (ix / 64)) 0).getLsbD (ix % 64) = true

/-- The storage has a word for every word of every row of every layer. -/
def Sized : Prop := bb.data.length = bb.nTheta * bb.mapY * wordsPerRow bb.mapX

def Clean : Prop :=
  ∀ x y t, x / 64 < wordsPerRow bb.mapX → y < bb.mapY → t < bb.nTheta → bb.Mem x y t → x < bb.mapX

variable {bb}

theorem sized_new (mapX mapY nTheta : Nat) : (new mapX mapY nTheta).Sized := by
  simp [Sized, new]

theorem Sized.set (h : bb.Sized) (ix iy it : Nat) : (bb.set ix iy it).Sized := by
  simp only [Sized, Bitboard3D.set, List.length_set]
  exact h

theorem wordIndex_eq (it iy wi : Nat) :
    bb.wordIndex it iy wi = it * bb.layerStride + (iy * wordsPerRow bb.mapX + wi) := by
  rw [wordIndex, layerStride, Nat.mul_assoc, Nat.add_assoc]

theorem layer_slice_le (h : bb.Sized) {it : Nat} (hit : it < bb.nTheta) :
    it * bb.layerStride + bb.layerStride ≤ bb.data.length := by
  rw [h, Nat.mul_assoc, ← Nat.succ_mul]
  exact Nat.mul_le_mul_right _ hit

theorem sized_layer (h : bb.Sized) {it : Nat} (hit : it < bb.nTheta) : (bb.layer it).Sized := by
  have hle := layer_slice_le h hit
  simp only [Bitboard2D.Sized, layer, List.length_take, List.length_drop, layerStride] at hle ⊢
  omega

theorem word_layer {it iy wi : Nat} (hiy : iy < bb.mapY) (hwi : wi < wordsPerRow bb.mapX) :
    (bb.layer it).word iy wi = bb.data.getD (bb.wordIndex it iy wi) 0 := by
  have hlt : iy * wordsPerRow bb.mapX + wi < bb.layerStride := Bitboard2D.word_index hiy hwi
  simp only [Bitboard2D.word, layer, List.getD_eq_getElem?_getD]
  rw [List.getElem?_take_of_lt hlt, List.getElem?_drop, wordIndex_eq]

theorem sized_layers (h : bb.Sized) : bb.layers.Sized bb.mapX bb.mapY bb.nTheta := by
  refine ⟨by simp [layers], ?_⟩
  intro b hb
  obtain ⟨it, hit, rfl⟩ := List.mem_map.mp hb
  exact ⟨sized_layer h (List.mem_range.mp hit), rfl, rfl⟩

theorem layer_layers {it : Nat} (hit : it < bb.nTheta) :
    ValueIteration.Bitboard3D.layer bb.layers it = bb.layer it := by
  simp [ValueIteration.Bitboard3D.layer, layers, List.getD_eq_getElem?_getD, hit]

theorem mem_layer {x y t : Nat} (hx : x / 64 < wordsPerRow bb.mapX) (hy : y < bb.mapY) :
    (bb.layer t).Mem x y ↔ bb.Mem x y t := by
  rw [Bitboard2D.Mem, word_layer hy hx, Mem]

theorem mem_layers {x y t : Nat} (hx : x / 64 < wordsPerRow bb.mapX) (hy : y < bb.mapY)
    (ht : t < bb.nTheta) : bb.layers.Mem x y t ↔ bb.Mem x y t := by
  rw [ValueIteration.Bitboard3D.Mem, layer_layers ht, mem_layer hx hy]

theorem clean_of_layer (h : ∀ t < bb.nTheta, (bb.layer t).Clean) : bb.Clean :=
  fun x y t hx hy ht hmem => h t ht x y hx hy ((mem_layer hx hy).mpr hmem)

theorem Clean.layer (h : bb.Clean) {t : Nat} (ht : t < bb.nTheta) : (bb.layer t).Clean :=
  fun x y hx hy hmem => h x y t hx hy ht ((mem_layer hx hy).mp hmem)

theorem layer_new {mapX mapY nTheta t : Nat} (ht : t < nTheta) :
    (new mapX mapY nTheta).layer t = Bitboard2D.new mapX mapY := by
  have hle := layer_slice_le (sized_new mapX mapY nTheta) ht
  simp only [layer, new, layerStride, Bitboard2D.new, List.length_replicate, List.drop_replicate,
    List.take_replicate] at hle ⊢
  congr 2
  omega

/-- Setting a bit of the packed board sets it in its layer and leaves the others alone. -/
theorem layer_set (h : bb.Sized) {ix iy it t : Nat} (hix : ix < bb.mapX) (hiy : iy < bb.mapY)
    (hit : it < bb.nTheta) :
    (bb.set ix iy it).layer t = if t = it then (bb.layer t).set ix iy else bb.layer t := by
  have hword : iy * wordsPerRow bb.mapX + ix / 64 < bb.layerStride :=
    Bitboard2D.word_index hiy (div_lt_wordsPerRow hix)
  have hidx := @wordIndex_eq bb it iy (ix / 64)
  have hlt : bb.wordIndex it iy (ix / 64) < bb.data.length := by
    have hle := layer_slice_le h hit
    omega
  have hsame : (bb.set ix iy it).layerStride = bb.layerStride := rfl
  by_cases heq : t = it
  · subst heq
    rw [if_pos rfl]
    have hdata : ((bb.set ix iy t).data.drop (t * bb.layerStride)).take bb.layerStride =
        ((bb.layer t).set ix iy).data := by
      apply List.ext_getElem?
      intro k
      by_cases hk : k < bb.layerStride
      · have hold := @word_layer bb t iy (ix / 64) hiy (div_lt_wordsPerRow hix)
        have hlen : k < ((bb.data.drop (t * bb.layerStride)).take bb.layerStride).length := by
          have hle := layer_slice_le h hit
          rw [List.length_take, List.length_drop]
          omega
        simp only [Bitboard2D.word, layer] at hold
        rw [List.getElem?_take_of_lt hk, List.getElem?_drop]
        simp only [set, Bitboard2D.set, layer, List.getElem?_set, hidx, Nat.add_left_cancel_iff]
        split
        · next hki =>
          rw [if_pos (by rw [← hidx]; exact hlt), if_pos (by rw [hki]; exact hlen), hold, hidx]
        · rw [List.getElem?_take_of_lt hk, List.getElem?_drop]
      · rw [List.getElem?_eq_none (by rw [List.length_take]; omega), List.getElem?_eq_none]
        simp only [Bitboard2D.set, layer, List.length_set, List.length_take]
        omega
    simp only [layer, hsame, hdata]
    rfl
  · rw [if_neg heq]
    have hdata : ((bb.set ix iy it).data.drop (t * bb.layerStride)).take bb.layerStride =
        (bb.data.drop (t * bb.layerStride)).take bb.layerStride := by
      apply List.ext_getElem?
      intro k
      by_cases hk : k < bb.layerStride
      · have hne : bb.wordIndex it iy (ix / 64) ≠ t * bb.layerStride + k := by
          rw [hidx]
          exact fun hcontra => heq (Bitboard2D.word_index_inj hword hk hcontra).1.symm
        rw [List.getElem?_take_of_lt hk, List.getElem?_take_of_lt hk, List.getElem?_drop,
          List.getElem?_drop, set, List.getElem?_set_ne hne]
      · rw [List.getElem?_eq_none (by rw [List.length_take]; omega),
          List.getElem?_eq_none (by rw [List.length_take]; omega)]
    simp only [layer, hsame, hdata]
    rfl

theorem clean_new (mapX mapY nTheta : Nat) : (new mapX mapY nTheta).Clean := by
  apply clean_of_layer
  intro t ht
  rw [layer_new (show t < nTheta from ht)]
  exact Bitboard2D.clean_new mapX mapY

theorem Clean.set (h : bb.Clean) (hs : bb.Sized) {ix iy it : Nat} (hix : ix < bb.mapX)
    (hiy : iy < bb.mapY) (hit : it < bb.nTheta) : (bb.set ix iy it).Clean := by
  apply clean_of_layer
  intro t ht
  rw [layer_set hs hix hiy hit]
  split
  · exact (h.layer ht).set (sized_layer hs ht) hix hiy
  · exact h.layer ht

end Bitboard3D

end Packed

end ValueIteration
