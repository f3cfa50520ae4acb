import ValueIteration.Schur.Portals

/-!
# The corridor of a two-stage query

The tiles through which the least chains of the start tiles' portals run, and a ring
around them. A second search that may use these tiles only finds the same costs for the
start tiles: their chains are still there, and a smaller mask lowers nothing.
-/

set_option autoImplicit false

namespace ValueIteration

section Corridor

variable (art : SchurArtifact) (dij : PortalDijkstra)

/-- Mark the tiles along the parents of `q`, for at most `steps` portals. -/
def corridorWalk : Nat → Nat → List Bool → List Bool
  | 0, _, mask => mask
  | steps + 1, q, mask =>
    let mask := if dij.viaTile q ≥ 0 then mask.set (dij.viaTile q).toNat true else mask
    match dij.parent q with
    | none => mask
    | some p => corridorWalk steps p mask

/-- One portal of a start tile; one that is not reached has no chain. -/
def corridorPortal (mask : List Bool) (q : Nat) : List Bool :=
  if dij.d q ≥ maxCost then mask else corridorWalk dij (art.portals.length + 1) q mask

def corridorFrom (mask : List Bool) (t : Int) : List Bool :=
  if t ≥ 0 ∧ t.toNat < nTiles art then
    (art.portalsOf t.toNat).foldl (corridorPortal art dij) (mask.set t.toNat true)
  else mask

/-- The marked tile `(tx, ty)` with the ring around it. -/
def dilateTile (dilate tx ty : Int) (mask : List Bool) : List Bool :=
  (span (-dilate) dilate).foldl (fun mask dy => (span (-dilate) dilate).foldl (fun mask dx =>
    if tx + dx ≥ 0 ∧ tx + dx < art.tnx.toInt ∧ ty + dy ≥ 0 ∧ ty + dy < art.tny.toInt then
      mask.set ((ty + dy) * art.tnx.toInt + (tx + dx)).toNat true
    else mask) mask) mask

def dilateMask (dilate : Int) (src : List Bool) : List Bool :=
  (span 0 (art.tny.toInt - 1)).foldl (fun mask ty => (span 0 (art.tnx.toInt - 1)).foldl
    (fun mask tx =>
      if !src.getD (ty * art.tnx.toInt + tx).toNat false then mask
      else dilateTile art dilate tx ty mask) mask) src

def corridorTiles (fromTiles : List Int) (dilate : Int) : List Bool :=
  let mask := fromTiles.foldl (corridorFrom art dij) (List.replicate (nTiles art) false)
  if dilate > 0 then dilateMask art dilate mask else mask

end Corridor

/-- Tiles are marked and never unmarked. -/
structure Grows (mask mask' : List Bool) : Prop where
  length : mask'.length = mask.length
  kept : ∀ t, mask.getD t false = true → mask'.getD t false = true

namespace Grows

variable {mask mask' mask'' : List Bool}

theorem refl (mask : List Bool) : Grows mask mask := ⟨rfl, fun _ h => h⟩

theorem trans (h : Grows mask mask') (h' : Grows mask' mask'') : Grows mask mask'' :=
  ⟨h'.length.trans h.length, fun t ht => h'.kept t (h.kept t ht)⟩

theorem foldl {α : Type} {f : List Bool → α → List Bool} (hf : ∀ m a, Grows m (f m a))
    (as : List α) : ∀ mask, Grows mask (as.foldl f mask) := by
  induction as with
  | nil => exact fun mask => refl mask
  | cons a as ih => exact fun mask => (hf mask a).trans (ih (f mask a))

/-- What a step of a growing loop has marked is still marked at its end. -/
theorem foldl_mem {α : Type} {f : List Bool → α → List Bool} (hf : ∀ m a, Grows m (f m a))
    {as : List α} {a : α} (ha : a ∈ as) : ∀ mask, ∃ m, Grows mask m ∧
      Grows (f m a) (as.foldl f mask) := by
  induction as with
  | nil => exact absurd ha List.not_mem_nil
  | cons b as ih =>
    intro mask
    rcases List.mem_cons.mp ha with rfl | ha
    · exact ⟨mask, refl mask, foldl hf as (f mask a)⟩
    · obtain ⟨m, hm, hend⟩ := ih ha (f mask b)
      exact ⟨m, (hf mask b).trans hm, hend⟩

end Grows

theorem getD_set_true {mask : List Bool} {i t : Nat} : (mask.set i true).getD t false = true ↔
    i = t ∧ t < mask.length ∨ mask.getD t false = true := by
  simp only [List.getD_eq_getElem?_getD, List.getElem?_set]
  by_cases hit : i = t
  · subst hit
    by_cases hlt : i < mask.length
    · simp [hlt]
    · simp [hlt]
  · simp [hit]

theorem grows_set (mask : List Bool) (i : Nat) : Grows mask (mask.set i true) :=
  ⟨List.length_set, fun _ ht => getD_set_true.mpr (.inr ht)⟩

section

variable {art : SchurArtifact} {dij : PortalDijkstra}

theorem grows_corridorWalk (steps : Nat) : ∀ (q : Nat) (mask : List Bool),
    Grows mask (corridorWalk dij steps q mask) := by
  induction steps with
  | zero => exact fun _ mask => Grows.refl mask
  | succ steps ih =>
    intro q mask
    have hmark : Grows mask
        (if dij.viaTile q ≥ 0 then mask.set (dij.viaTile q).toNat true else mask) := by
      split
      · exact grows_set mask _
      · exact Grows.refl mask
    unfold corridorWalk
    simp only
    cases dij.parent q with
    | none => exact hmark
    | some p => exact hmark.trans (ih p _)

theorem grows_corridorPortal (mask : List Bool) (q : Nat) :
    Grows mask (corridorPortal art dij mask q) := by
  unfold corridorPortal
  split
  · exact Grows.refl mask
  · exact grows_corridorWalk _ q mask

theorem grows_corridorFrom (mask : List Bool) (t : Int) :
    Grows mask (corridorFrom art dij mask t) := by
  unfold corridorFrom
  split
  · exact (grows_set mask _).trans (Grows.foldl grows_corridorPortal _ _)
  · exact Grows.refl mask

theorem grows_dilateTile (dilate tx ty : Int) (mask : List Bool) :
    Grows mask (dilateTile art dilate tx ty mask) := by
  apply Grows.foldl
  intro m dy
  apply Grows.foldl
  intro m' dx
  split
  · exact grows_set m' _
  · exact Grows.refl m'

theorem grows_dilateMask (dilate : Int) (src : List Bool) :
    Grows src (dilateMask art dilate src) := by
  apply Grows.foldl
  intro m ty
  apply Grows.foldl
  intro m' tx
  split
  · exact Grows.refl m'
  · exact grows_dilateTile dilate tx ty m'

/-- The walk marks the tiles of a whole line of parents that is not longer than its steps. -/
theorem corridorWalk_marks {q : Nat} {l : List Nat} (h : Dijkstra.Lineage dij.parent q l) :
    ∀ {steps : Nat} {mask : List Bool}, l.length ≤ steps → ∀ x ∈ l, ∀ t : Nat,
      dij.viaTile x = t → t < mask.length →
      (corridorWalk dij steps q mask).getD t false = true := by
  have hmark : ∀ {q : Nat} {steps : Nat} {mask : List Bool} {t : Nat}, dij.viaTile q = t →
      t < mask.length → (corridorWalk dij (steps + 1) q mask).getD t false = true := by
    intro q steps mask t hvia ht
    have hset : (mask.set t true).getD t false = true := getD_set_true.mpr (.inl ⟨rfl, ht⟩)
    unfold corridorWalk
    simp only [hvia, ge_iff_le, Int.natCast_nonneg, if_true, Int.toNat_natCast]
    cases dij.parent q with
    | none => exact hset
    | some p => exact (grows_corridorWalk steps p _).kept t hset
  induction h with
  | @root q hroot =>
    intro steps mask hlen x hx t hvia ht
    rw [List.mem_singleton.mp hx] at hvia
    obtain ⟨steps, rfl⟩ := Nat.exists_eq_succ_of_ne_zero (n := steps) (by
      rw [List.length_singleton] at hlen
      omega)
    exact hmark hvia ht
  | @step q p l hp hl ih =>
    intro steps mask hlen x hx t hvia ht
    rw [List.length_cons] at hlen
    obtain ⟨steps, rfl⟩ := Nat.exists_eq_succ_of_ne_zero (n := steps) (by omega)
    rcases List.mem_cons.mp hx with rfl | hx
    · exact hmark hvia ht
    · unfold corridorWalk
      simp only [hp]
      apply ih (by omega) x hx t hvia
      split
      · rwa [List.length_set]
      · exact ht

/-- The lines of parents of the start tiles' portals run through tiles of the corridor. -/
theorem corridorTiles_marks (hart : art.WellFormed) (hgrid : art.tiles.length = nTiles art)
    {agg : PatchAgg} {vi : ValueIterator} (hdij : dij.Solves agg vi art none)
    {fromTiles : List Int} {dilate : Int} {t : Nat} (ht : (t : Int) ∈ fromTiles)
    (hlt : t < art.tiles.length) {q : Nat} (hq : q ∈ art.portalsOf t) (hreach : dij.d q < maxCost)
    {l : List Nat} (hl : Dijkstra.Lineage dij.parent q l) {x : Nat} (hx : x ∈ l) {k : Nat}
    (hk : dij.viaTile x = k) (hkt : k < art.tiles.length) :
    (corridorTiles art dij fromTiles dilate).getD k false = true := by
  have hlabelled : ∀ y ∈ l, dij.d y < maxCost :=
    hl.forall_mem (fun y p hp => (hdij.linked y p hp).2.1) hreach
  have hrange : ∀ y ∈ l, y < art.portals.length := by
    intro y hy
    cases hp : dij.parent y with
    | none =>
      obtain ⟨t', _, ht', _, _, hmem, _⟩ := hdij.root y (hlabelled y hy) hp
      exact hart.portal_lt ht' hmem
    | some p =>
      obtain ⟨_, _, _, ⟨k', sq, _, _, hk', _, hsq, _, _⟩, _⟩ := hdij.linked y p hp
      exact hart.portal_lt hk' (List.mem_of_getElem? hsq)
  have hlen : l.length ≤ art.portals.length + 1 := by
    have hsub : l ⊆ List.range art.portals.length := fun y hy => List.mem_range.mpr (hrange y hy)
    have hle := ((hl.nodup hdij.forest).subperm hsub).length_le
    rw [List.length_range] at hle
    omega
  obtain ⟨m, hm, hend⟩ := Grows.foldl_mem (f := corridorFrom art dij) grows_corridorFrom ht
    (List.replicate (nTiles art) false)
  have hmlen : m.length = nTiles art := hm.length.trans List.length_replicate
  have htile : (corridorFrom art dij m t).getD k false = true := by
    unfold corridorFrom
    rw [if_pos ⟨Int.natCast_nonneg t, by rwa [Int.toNat_natCast, ← hgrid]⟩, Int.toNat_natCast]
    obtain ⟨m', hm', hend'⟩ := Grows.foldl_mem (f := corridorPortal art dij) grows_corridorPortal hq
      (m.set t true)
    apply hend'.kept
    have hmlen' : m'.length = nTiles art := by
      rw [hm'.length, List.length_set, hmlen]
    unfold corridorPortal
    rw [if_neg (by omega)]
    exact corridorWalk_marks hl hlen x hx k hk (by omega)
  have hmarked := hend.kept k htile
  unfold corridorTiles
  simp only
  split
  · exact (grows_dilateMask dilate _).kept k hmarked
  · exact hmarked

/-- A chain along parents whose tiles the mask allows is a chain of the mask. -/
theorem portalChain_of_lineage {agg : PatchAgg} {vi : ValueIterator}
    (hdij : dij.Solves agg vi art none) {mask : TileMask} {q : Nat} {l : List Nat}
    (hl : Dijkstra.Lineage dij.parent q l) (hreach : dij.d q < maxCost)
    (hallow : ∀ x ∈ l, ∀ k : Nat, dij.viaTile x = k → k < art.tiles.length →
      mask.allows k = some true) : PortalChain agg vi art mask q (dij.d q) := by
  induction hl with
  | @root q hroot =>
    obtain ⟨t, hvia, ht, hgoal, _, hmem, hc⟩ := hdij.root q hreach hroot
    exact .seed ⟨t, hvia, ht, hgoal, hallow q List.mem_cons_self t hvia ht, hmem, hc⟩
  | @step q p l hp hl ih =>
    obtain ⟨_, hpreach, w, ⟨k, sq, sp, hvia, hk, _, hsq, hsp, hw⟩, hd⟩ := hdij.linked q p hp
    have hpassage : art.IsPassage mask (dij.viaTile q) q p w :=
      ⟨k, sq, sp, hvia, hk, hallow q List.mem_cons_self k hvia hk, hsq, hsp, hw⟩
    have hrest := ih hpreach fun x hx => hallow x (List.mem_cons_of_mem q hx)
    rw [hd]
    exact Dijkstra.Chain.step (e := ⟨q, w, dij.viaTile q⟩) (mem_passagesInto.mpr hpassage) hrest

/-- The corridor has an entry for every tile. -/
theorem length_corridorTiles (fromTiles : List Int) (dilate : Int) :
    (corridorTiles art dij fromTiles dilate).length = nTiles art := by
  have hfrom := (Grows.foldl (f := corridorFrom art dij) grows_corridorFrom fromTiles
    (List.replicate (nTiles art) false)).length
  rw [List.length_replicate] at hfrom
  unfold corridorTiles
  simp only
  split
  · exact (grows_dilateMask dilate _).length.trans hfrom
  · exact hfrom

theorem allows_of_getD {m : List Bool} {k : Nat} (h : m.getD k false = true) :
    TileMask.allows (some m) k = some true := by
  rw [List.getD_eq_getElem?_getD] at h
  unfold TileMask.allows
  cases hk : m[k]? with
  | none =>
    rw [hk] at h
    cases h
  | some allowed =>
    rw [hk, Option.getD_some] at h
    simp only [hk, h]

end

/-- Within the corridor every portal of a start tile keeps its cost. -/
theorem corridor_lossless (agg : PatchAgg) (vi : ValueIterator) (art : SchurArtifact)
    (hart : art.WellFormed) (hgrid : art.tiles.length = nTiles art) (fromTiles : List Int)
    (dilate : Int) :
    ∃ dij, portalCostsMasked agg vi art none = some dij ∧
      ∃ r, portalCostsMasked agg vi art (some (corridorTiles art dij fromTiles dilate)) = some r ∧
        ∀ t : Nat, (t : Int) ∈ fromTiles → t < art.tiles.length →
          ∀ q ∈ art.portalsOf t, r.d q = dij.d q := by
  obtain ⟨dij, hrun, hdij⟩ := @portalCostsMasked_spec art none agg vi hart hgrid fun _ h => by cases h
  obtain ⟨r, hrun', hr⟩ := @portalCostsMasked_spec art
    (some (corridorTiles art dij fromTiles dilate)) agg vi hart hgrid
    (covers_of_length (by rw [hgrid, length_corridorTiles]))
  refine ⟨dij, hrun, r, hrun', fun t ht hlt q hq => ?_⟩
  have hge : dij.d q ≤ r.d q := hr.le hdij fun c => portalChain_mono fun _ _ => rfl
  by_cases hreach : dij.d q < maxCost
  · obtain ⟨l, hl⟩ := Dijkstra.exists_lineage hdij.forest q
    have hchain : PortalChain agg vi art (some (corridorTiles art dij fromTiles dilate)) q
        (dij.d q) :=
      portalChain_of_lineage hdij hl hreach
        fun x hx k hk hkt => allows_of_getD
          (corridorTiles_marks hart hgrid hdij ht hlt hq hreach hl hx hk hkt)
    apply le_antisymm _ hge
    by_cases hlow : r.d q < maxCost
    · exact (hr.least q hlow).2 hchain
    · have := (hr.unreached q hlow).2 _ hchain
      omega
  · have hmax := (hdij.unreached q hreach).1
    have hnot : ¬ r.d q < maxCost := by omega
    rw [(hr.unreached q hnot).1, hmax]

/-- From the tile in the middle; the tile behind it is not in the corridor. -/
theorem rowArt_corridor :
    ∃ dij, portalCostsMasked .max longRow rowArt none = some dij ∧
      corridorTiles rowArt dij [1] 0 = [true, true, false] ∧
      ∃ r, portalCostsMasked .max longRow rowArt (some (corridorTiles rowArt dij [1] 0)) = some r ∧
        ∀ t : Nat, (t : Int) ∈ [(1 : Int)] → t < rowArt.tiles.length →
          ∀ q ∈ rowArt.portalsOf t, r.d q = dij.d q := by
  have hmask : (portalCostsMasked .max longRow rowArt none).map
      (fun dij => corridorTiles rowArt dij [1] 0) = some [true, true, false] := by
    decide +kernel
  obtain ⟨dij, hdij, hkept⟩ :=
    corridor_lossless .max longRow rowArt rowArt_wellFormed (by decide) [1] 0
  rw [hdij, Option.map_some, Option.some.injEq] at hmask
  exact ⟨dij, hdij, hmask, hkept⟩

end ValueIteration
