import ValueIteration.Solvers.EngineSound

/-!
# The heading masks of the sparse solver

The circular dilation of a mask holds every heading within the displacement of a set
one, and the masks the leader keeps are those of the last round's moves. So a
candidate evaluates every heading one of whose outcomes moved.
-/

set_option autoImplicit false

namespace ValueIteration

open ValueIterator

section Bits

theorem getLsbD_fullMask {nt : Nat} (hnt : nt ≤ 64) (i : Nat) :
    (fullMask nt).getLsbD i = decide (i < nt) := by
  unfold fullMask
  by_cases h : 64 ≤ nt
  · have hnt64 : nt = 64 := by omega
    rw [if_pos h, BitVec.getLsbD_allOnes, hnt64]
  · rw [if_neg h]
    have hpow : 2 ^ nt < 2 ^ 64 := Nat.pow_lt_pow_right (by decide) (by omega)
    have hpos : 0 < 2 ^ nt := Nat.two_pow_pos nt
    have hval : ((1#64 <<< nt) - 1#64).toNat = 2 ^ nt - 1 := by
      rw [BitVec.toNat_sub, BitVec.toNat_shiftLeft, BitVec.toNat_ofNat, Nat.shiftLeft_eq]
      norm_num
      omega
    rw [BitVec.getLsbD, hval, Nat.testBit_two_pow_sub_one]

theorem mem_maskBits {m : BitVec 64} {b : Nat} : b ∈ maskBits m ↔ m.getLsbD b = true := by
  rw [maskBits, List.mem_filter, List.mem_range]
  constructor
  · exact fun h => h.2
  · exact fun h => ⟨BitVec.lt_of_getLsbD h, h⟩

theorem nodup_maskBits (m : BitVec 64) : (maskBits m).Nodup := List.nodup_range.filter _

/-- All bits of a mask are headings. -/
def Below (nt : Nat) (m : BitVec 64) : Prop := ∀ b, m.getLsbD b = true → b < nt

variable {nt : Nat}

theorem below_and_fullMask (hnt : nt ≤ 64) (m : BitVec 64) : Below nt (m &&& fullMask nt) := by
  intro b hb
  rw [BitVec.getLsbD_and, Bool.and_eq_true, getLsbD_fullMask hnt, decide_eq_true_eq] at hb
  exact hb.2

theorem Below.or {a b : BitVec 64} (ha : Below nt a) (hb : Below nt b) : Below nt (a ||| b) := by
  intro i hi
  rw [BitVec.getLsbD_or, Bool.or_eq_true] at hi
  rcases hi with h | h
  · exact ha i h
  · exact hb i h

theorem rotate_left_bit (hnt : nt ≤ 64) {l : BitVec 64} {u : Nat} (hu : u < nt)
    (h : l.getLsbD u = true) :
    (((l <<< 1) ||| (l >>> (nt - 1))) &&& fullMask nt).getLsbD ((u + 1) % nt) = true := by
  have hlt : (u + 1) % nt < nt := Nat.mod_lt _ (by omega)
  rw [BitVec.getLsbD_and, getLsbD_fullMask hnt, BitVec.getLsbD_or, decide_eq_true hlt,
    Bool.and_true, Bool.or_eq_true]
  by_cases hlast : u + 1 = nt
  · right
    rw [hlast, Nat.mod_self, BitVec.getLsbD_ushiftRight, Nat.add_zero, ← hlast]
    exact h
  · left
    rw [Nat.mod_eq_of_lt (by omega), BitVec.getLsbD_shiftLeft]
    have h64 : u + 1 < 64 := by omega
    simp [h64, h]

theorem rotate_right_bit (hnt : nt ≤ 64) {r : BitVec 64} {s : Nat} (hs : s < nt)
    (h : r.getLsbD ((s + 1) % nt) = true) :
    (((r >>> 1) ||| (r <<< (nt - 1))) &&& fullMask nt).getLsbD s = true := by
  rw [BitVec.getLsbD_and, getLsbD_fullMask hnt, BitVec.getLsbD_or, decide_eq_true hs,
    Bool.and_true, Bool.or_eq_true]
  by_cases hlast : s + 1 = nt
  · right
    rw [hlast, Nat.mod_self] at h
    have hsub : s - (nt - 1) = 0 := by omega
    have h64 : s < 64 := by omega
    have hge : ¬ s < nt - 1 := by omega
    rw [BitVec.getLsbD_shiftLeft, hsub, h]
    simp [h64, hge]
  · left
    rw [Nat.mod_eq_of_lt (by omega)] at h
    rw [BitVec.getLsbD_ushiftRight, Nat.add_comm]
    exact h

/-- The dilation holds every heading within `k` of a set one, and headings only. -/
theorem rotDilate_spec (hnt : nt ≤ 64) {m : BitVec 64} (hm : Below nt m) (k : Nat) :
    Below nt (rotDilate m k nt) ∧ ∀ s t i, s < nt → t < nt → m.getLsbD t = true → i ≤ k →
      (t = (s + i) % nt ∨ s = (t + i) % nt) → (rotDilate m k nt).getLsbD s = true := by
  let step := fun (a : BitVec 64 × BitVec 64 × BitVec 64) (_ : Nat) =>
    let l := ((a.2.1 <<< 1) ||| (a.2.1 >>> (nt - 1))) &&& fullMask nt
    let r := ((a.2.2 >>> 1) ||| (a.2.2 <<< (nt - 1))) &&& fullMask nt
    (a.1 ||| l ||| r, l, r)
  have hinv : ∀ k, let a := (List.range k).foldl step (m, m, m)
      Below nt a.1 ∧
      (∀ t, t < nt → m.getLsbD t = true → a.2.1.getLsbD ((t + k) % nt) = true) ∧
      (∀ s, s < nt → m.getLsbD ((s + k) % nt) = true → a.2.2.getLsbD s = true) ∧
      ∀ s t i, s < nt → t < nt → m.getLsbD t = true → i ≤ k →
        (t = (s + i) % nt ∨ s = (t + i) % nt) → a.1.getLsbD s = true := by
    intro k
    induction k with
    | zero =>
      refine ⟨hm, ?_, ?_, ?_⟩
      · intro t ht h
        rwa [Nat.add_zero, Nat.mod_eq_of_lt ht]
      · intro s hs h
        rwa [Nat.add_zero, Nat.mod_eq_of_lt hs] at h
      · intro s t i hs ht h hi hst
        obtain rfl : i = 0 := by omega
        rw [Nat.add_zero, Nat.add_zero, Nat.mod_eq_of_lt hs, Nat.mod_eq_of_lt ht] at hst
        have : s = t := by omega
        rwa [this]
    | succ k ih =>
      obtain ⟨hbelow, hl, hr, hall⟩ := ih
      rw [List.range_succ, List.foldl_append, List.foldl_cons, List.foldl_nil]
      have hl' : ∀ t, t < nt → m.getLsbD t = true →
          (step ((List.range k).foldl step (m, m, m)) k).2.1.getLsbD ((t + (k + 1)) % nt) =
            true := by
        intro t ht h
        have hu : (t + k) % nt < nt := Nat.mod_lt _ (by omega)
        have hrot := rotate_left_bit hnt hu (hl t ht h)
        rwa [Nat.mod_add_mod, Nat.add_assoc] at hrot
      have hr' : ∀ s, s < nt → m.getLsbD ((s + (k + 1)) % nt) = true →
          (step ((List.range k).foldl step (m, m, m)) k).2.2.getLsbD s = true := by
        intro s hs h
        refine rotate_right_bit hnt hs (hr _ (Nat.mod_lt _ (by omega)) ?_)
        rwa [Nat.mod_add_mod, Nat.add_assoc, Nat.add_comm 1 k]
      refine ⟨(hbelow.or (below_and_fullMask hnt _)).or (below_and_fullMask hnt _), hl', hr', ?_⟩
      intro s t i hs ht h hi hst
      have hor : (step ((List.range k).foldl step (m, m, m)) k).1 =
          ((List.range k).foldl step (m, m, m)).1 |||
            (step ((List.range k).foldl step (m, m, m)) k).2.1 |||
            (step ((List.range k).foldl step (m, m, m)) k).2.2 := rfl
      rw [hor, BitVec.getLsbD_or, BitVec.getLsbD_or, Bool.or_eq_true, Bool.or_eq_true]
      by_cases hik : i ≤ k
      · exact Or.inl (Or.inl (hall s t i hs ht h hik hst))
      · obtain rfl : i = k + 1 := by omega
        rcases hst with hst | hst
        · right
          exact hr' s hs (hst ▸ h)
        · left
          right
          rw [hst]
          exact hl' t ht h
  exact ⟨(hinv k).1, (hinv k).2.2.2⟩

theorem getLsbD_moveMask {moves : List (Nat × Nat)} {b : Nat} (hb : b < 64) :
    (moveMask moves).getLsbD b = true ↔ ∃ e ∈ moves, e.1 = b := by
  have hfold : ∀ acc : BitVec 64, (moves.foldl (fun acc e => acc ||| (1#64 <<< e.1)) acc).getLsbD b
      = true ↔ acc.getLsbD b = true ∨ ∃ e ∈ moves, e.1 = b := by
    induction moves with
    | nil => simp
    | cons e moves ih =>
      intro acc
      have hone : (1#64 <<< e.1).getLsbD b = true ↔ e.1 = b := by
        rw [BitVec.getLsbD_shiftLeft]
        simp only [hb, decide_true, Bool.true_and, Bool.and_eq_true, Bool.not_eq_true',
          decide_eq_false_iff_not, BitVec.getLsbD_one, decide_eq_true_eq]
        omega
      rw [List.foldl_cons, ih, BitVec.getLsbD_or, Bool.or_eq_true, hone]
      simp only [List.mem_cons, exists_eq_or_imp, or_assoc]
  rw [moveMask, hfold]
  simp

/-- A union over a list keeps every bit of every member. -/
theorem getLsbD_foldl_or {β : Type} (f : β → BitVec 64) (b : Nat) (xs : List β) :
    ∀ acc : BitVec 64, (xs.foldl (fun acc x => acc ||| f x) acc).getLsbD b = true ↔
      acc.getLsbD b = true ∨ ∃ x ∈ xs, (f x).getLsbD b = true := by
  induction xs with
  | nil => simp
  | cons x xs ih =>
    intro acc
    rw [List.foldl_cons, ih, BitVec.getLsbD_or, Bool.or_eq_true]
    simp only [List.mem_cons, exists_eq_or_imp, or_assoc]

end Bits

section Masks
variable {vi : ValueIterator}

theorem gatherMask_eq (mask : Grid (BitVec 64)) (c : Nat × Nat) (b : Nat) :
    (vi.gatherMask mask c).getLsbD b = true ↔ ∃ dy < 2 * vi.my + 1, ∃ dx < 2 * vi.mx + 1,
      (mask.get (vi.maskPos (c.1 - vi.mx + dx) (c.2 - vi.my + dy))).getLsbD b = true := by
  have hrow : ∀ (dys : List Nat) (acc : BitVec 64), (dys.foldl (fun acc (dy : Nat) =>
      (List.range (2 * vi.mx + 1)).foldl (fun acc (dx : Nat) =>
        acc ||| mask.get (vi.maskPos (c.1 - vi.mx + dx) (c.2 - vi.my + dy))) acc) acc).getLsbD b
        = true ↔ acc.getLsbD b = true ∨ ∃ dy ∈ dys, ∃ dx < 2 * vi.mx + 1,
          (mask.get (vi.maskPos (c.1 - vi.mx + dx) (c.2 - vi.my + dy))).getLsbD b = true := by
    intro dys
    induction dys with
    | nil => simp
    | cons dy dys ih =>
      intro acc
      rw [List.foldl_cons, ih, getLsbD_foldl_or]
      simp only [List.mem_range, List.mem_cons, exists_eq_or_imp, or_assoc]
  rw [gatherMask, hrow]
  simp only [List.mem_range, BitVec.getLsbD_zero, Bool.false_eq_true, false_or]

/-- What the leader's masks say after a round. -/
structure Masked (vi : ValueIterator) (s : ThetaMasks) (changed : List CellMoves) : Prop where
  dims : s.mask.dims = vi.maskDims
  first : s.first = true → changed = []
  prev : s.prev = changed.map (·.1)
  nodup : s.prev.Nodup
  inMap : ∀ c ∈ s.prev, InMap vi c
  stored : ∀ c moves, (c, moves) ∈ changed → s.mask.get (vi.maskPos c.1 c.2) = moveMask moves
  clear : ∀ q, vi.maskDims.Contains q → (∀ c ∈ s.prev, q ≠ vi.maskPos c.1 c.2) →
    s.mask.get q = 0#64

theorem maskPos_contains {c : Nat × Nat} (hc : InMap vi c) :
    vi.maskDims.Contains (vi.maskPos c.1 c.2) := by
  obtain ⟨h1, h2⟩ := hc
  simp only [Dims.Contains, maskPos, maskDims]
  omega

theorem maskPos_injective {c d : Nat × Nat} (h : vi.maskPos c.1 c.2 = vi.maskPos d.1 d.2) :
    c = d := by
  simp only [maskPos, Pos.mk.injEq, and_true] at h
  exact Prod.ext (by omega) (by omega)

/-- Values stored one after the other at distinct cells. -/
theorem foldl_setMask {β : Type} (cell : β → Nat × Nat) (val : β → BitVec 64) (ws : List β) :
    ∀ g : Grid (BitVec 64), g.dims = vi.maskDims → (ws.map cell).Nodup →
      (∀ w ∈ ws, InMap vi (cell w)) →
      let g' := ws.foldl (fun g w => g.set (vi.maskPos (cell w).1 (cell w).2) (val w)) g
      g'.dims = vi.maskDims ∧ (∀ w ∈ ws, g'.get (vi.maskPos (cell w).1 (cell w).2) = val w) ∧
        ∀ q, vi.maskDims.Contains q → (∀ w ∈ ws, q ≠ vi.maskPos (cell w).1 (cell w).2) →
          g'.get q = g.get q := by
  induction ws with
  | nil =>
    intro g hd _ _
    refine ⟨hd, ?_, fun _ _ _ => rfl⟩
    intro w hw
    cases hw
  | cons w ws ih =>
    intro g hd hnodup hin
    rw [List.map_cons, List.nodup_cons] at hnodup
    have hw := maskPos_contains (hin w List.mem_cons_self)
    obtain ⟨hd', hset, hframe⟩ := ih (g.set (vi.maskPos (cell w).1 (cell w).2) (val w)) hd hnodup.2
      fun u hu => hin u (List.mem_cons_of_mem _ hu)
    refine ⟨hd', ?_, ?_⟩
    · intro u hu
      rcases List.mem_cons.mp hu with rfl | hu
      · rw [List.foldl_cons, hframe _ hw]
        · exact Grid.get_set_self (by rw [hd]; exact hw) _
        · intro x hx heq
          exact hnodup.1 (maskPos_injective heq ▸ List.mem_map_of_mem hx)
      · exact hset u hu
    · intro q hq hne
      rw [List.foldl_cons, hframe q hq fun u hu => hne u (List.mem_cons_of_mem _ hu)]
      exact Grid.get_set_ne (by rw [hd]; exact hw) (by rw [hd]; exact hq)
        (hne w List.mem_cons_self) _

theorem masked_start : Masked vi vi.sparseStart [] where
  dims := rfl
  first _ := rfl
  prev := rfl
  nodup := List.nodup_nil
  inMap c hc := by cases hc
  stored c moves hc := by cases hc
  clear q hq _ := Grid.get_ofFn _ hq

theorem Masked.mark {s : ThetaMasks} {old changed : List CellMoves} (h : Masked vi s old)
    (hwell : WellMoved vi changed) : Masked vi (vi.sparseMark s changed) changed := by
  obtain ⟨hd, hzero, hkeep⟩ := @foldl_setMask vi _ (fun c : Nat × Nat => c) (fun _ => 0#64)
    s.prev s.mask h.dims (by rw [List.map_id']; exact h.nodup) h.inMap
  have hcells : ∀ e ∈ changed, InMap vi e.1 := fun e he => hwell.inMap e.1 e.2 he
  obtain ⟨hd', hstored, hkeep'⟩ := @foldl_setMask vi _ (fun e : CellMoves => e.1)
    (fun e => moveMask e.2) changed _ hd hwell.nodup hcells
  refine ⟨hd', fun hf => (by cases hf), rfl, hwell.nodup, ?_, ?_, ?_⟩
  · intro c hc
    obtain ⟨e, he, rfl⟩ := List.mem_map.mp hc
    exact hcells e he
  · intro c moves hc
    exact hstored (c, moves) hc
  · intro q hq hne
    have hnot : ∀ e ∈ changed, q ≠ vi.maskPos e.1.1 e.1.2 := fun e he =>
      hne e.1 (List.mem_map_of_mem he)
    refine (hkeep' q hq hnot).trans ?_
    by_cases hp : ∃ c ∈ s.prev, q = vi.maskPos c.1 c.2
    · obtain ⟨c, hc, rfl⟩ := hp
      exact hzero c hc
    · have hnone : ∀ c ∈ s.prev, q ≠ vi.maskPos c.1 c.2 := fun c hc heq => hp ⟨c, hc, heq⟩
      exact (hkeep q hq hnone).trans (h.clear q hq hnone)

theorem circDistance_le (nt : Nat) (dit t : Int) : circDistance nt dit t ≤ nt := by
  unfold circDistance
  rcases Nat.eq_zero_or_pos nt with rfl | hnt
  · simp only [Nat.cast_zero, Int.emod_zero]
    omega
  · have h0 := Int.emod_nonneg (dit - t) (show (nt : Int) ≠ 0 by omega)
    have h1 := Int.emod_lt_of_pos (dit - t) (show (0 : Int) < nt by omega)
    simp only
    omega

theorem mt_le : vi.mt ≤ vi.dims.nt := by
  have hfold : ∀ (l : List (Nat × StateTransition)) (m : Nat × Nat × Nat), m.2.2 ≤ vi.dims.nt →
      (l.foldl (fun m e => (max m.1 e.2.dix.natAbs, max m.2.1 e.2.diy.natAbs,
        max m.2.2 (circDistance vi.dims.nt e.2.dit e.1))) m).2.2 ≤ vi.dims.nt := by
    intro l
    induction l with
    | nil => intro m h; exact h
    | cons e l ih => intro m h; exact ih _ (Nat.max_le.mpr ⟨h, circDistance_le _ _ _⟩)
  exact hfold _ _ (Nat.zero_le _)

/-- The window of a cell stays on the padded mask array. -/
theorem window_contains {c : Nat × Nat} (hc : InMap vi c) {dx dy : Nat} (hdx : dx < 2 * vi.mx + 1)
    (hdy : dy < 2 * vi.my + 1) :
    vi.maskDims.Contains (vi.maskPos (c.1 - vi.mx + dx) (c.2 - vi.my + dy)) := by
  obtain ⟨h1, h2⟩ := hc
  simp only [Dims.Contains, maskPos, maskDims]
  omega

theorem Masked.below {s : ThetaMasks} {changed : List CellMoves} (h : Masked vi s changed)
    (hwell : WellMoved vi changed) {c : Nat × Nat} (hc : InMap vi c) :
    Below vi.dims.nt (vi.gatherMask s.mask c) := by
  intro b hb
  obtain ⟨dy, hdy, dx, hdx, hbit⟩ := (gatherMask_eq _ _ _).mp hb
  have hq := window_contains hc hdx hdy
  by_cases hp : ∃ d ∈ s.prev, vi.maskPos (c.1 - vi.mx + dx) (c.2 - vi.my + dy) =
      vi.maskPos d.1 d.2
  · obtain ⟨d, hd, heq⟩ := hp
    rw [h.prev] at hd
    obtain ⟨⟨d, moves⟩, hmem, rfl⟩ := List.mem_map.mp hd
    rw [heq, h.stored d moves hmem, getLsbD_moveMask (BitVec.lt_of_getLsbD hbit)] at hbit
    obtain ⟨e, he, rfl⟩ := hbit
    exact hwell.headings d moves hmem e he
  · rw [h.clear _ hq fun d hd heq => hp ⟨d, hd, heq⟩] at hbit
    simp at hbit

/-- A moved state in the displacement box sets its heading in the window. -/
theorem Masked.gathers {s : ThetaMasks} {changed : List CellMoves} (h : Masked vi s changed)
    (hnt : vi.dims.nt ≤ 64) (hwell : WellMoved vi changed) {u t : Pos} (hu : vi.dims.Contains u)
    (hbox : vi.InBox u t) (hmoved : Moved changed t) :
    (vi.gatherMask s.mask (u.ix.toNat, u.iy.toNat)).getLsbD t.it.toNat = true := by
  obtain ⟨d, moves, hd, e, he, rfl⟩ := hmoved
  have hlt := hwell.headings d moves hd e he
  have hx := hbox.ix
  have hy := hbox.iy
  obtain ⟨⟨hux0, _⟩, ⟨huy0, _⟩, _⟩ := hu
  simp only [thetaPos] at hx hy
  rw [gatherMask_eq]
  refine ⟨((d.2 : Int) - u.iy + vi.my).toNat, by omega, ((d.1 : Int) - u.ix + vi.mx).toNat,
    by omega, ?_⟩
  have hpos : vi.maskPos ((u.ix.toNat : Int) - vi.mx + (((d.1 : Int) - u.ix + vi.mx).toNat : Nat))
      ((u.iy.toNat : Int) - vi.my + (((d.2 : Int) - u.iy + vi.my).toNat : Nat)) =
        vi.maskPos d.1 d.2 := by
    simp only [maskPos, Pos.mk.injEq, and_true]
    omega
  rw [hpos, h.stored d moves hd]
  exact (getLsbD_moveMask (by simp only [thetaPos, Int.toNat_natCast]; omega)).mpr
    ⟨e, he, by simp [thetaPos]⟩

/-- The leader's masks after rounds that moved distinct cells of the map. -/
inductive MarkRun (vi : ValueIterator) : ThetaMasks → List CellMoves → Prop
  | start : MarkRun vi vi.sparseStart []
  | mark {s : ThetaMasks} {old changed : List CellMoves} : MarkRun vi s old →
      WellMoved vi changed → MarkRun vi (vi.sparseMark s changed) changed

theorem MarkRun.masked {s : ThetaMasks} {changed : List CellMoves} (h : MarkRun vi s changed) :
    Masked vi s changed := by
  induction h with
  | start => exact masked_start
  | mark _ hwell ih => exact ih.mark hwell

theorem MarkRun.wellMoved {s : ThetaMasks} {changed : List CellMoves} (h : MarkRun vi s changed) :
    WellMoved vi changed := by
  cases h with
  | start => exact wellMoved_nil
  | mark _ hwell => exact hwell

/-- The sparse solver evaluates every heading one of whose outcomes moved. -/
theorem sparseSweep_lawful (hnt : vi.dims.nt ≤ 64) (m : CellModel) :
    (vi.sparseSweep m).Lawful vi vi.sparseStart (Masked vi) where
  start := masked_start
  mark _ _ _ h hwell := h.mark hwell
  legal := by
    intro own changed h hwell c hc
    change (vi.sparseHeadings own c).Nodup ∧ ∀ it ∈ vi.sparseHeadings own c, it < vi.dims.nt
    rw [sparseHeadings]
    split
    · refine ⟨nodup_maskBits _, ?_⟩
      intro it hit
      rw [mem_maskBits, getLsbD_fullMask hnt, decide_eq_true_eq] at hit
      exact hit
    · simp only
      split
      · exact ⟨List.nodup_nil, fun it hit => by cases hit⟩
      · refine ⟨nodup_maskBits _, ?_⟩
        intro it hit
        exact (rotDilate_spec hnt (h.below hwell hc) vi.mt).1 it (mem_maskBits.mp hit)
  first := by
    intro c it hit
    have h : it ∈ maskBits (fullMask vi.dims.nt) :=
      mem_maskBits.mpr (by rw [getLsbD_fullMask hnt, decide_eq_true hit])
    exact h
  covers := by
    intro own changed h hwell s t hs hbox hmoved
    have hct := hwell.contains hmoved
    obtain ⟨_, hin, hslt⟩ := eq_thetaPos hs
    have htlt := (eq_thetaPos hct).2.2
    have hbit := h.gathers hnt hwell hs hbox hmoved
    change _ ∈ vi.sparseHeadings own _
    rw [sparseHeadings]
    split
    · next hfirst =>
      obtain ⟨c, moves, hc, _⟩ := hmoved
      rw [h.first hfirst] at hc
      cases hc
    · simp only
      rw [if_neg (fun hz => by rw [hz] at hbit; simp at hbit), mem_maskBits]
      obtain ⟨k, hk, hnear⟩ := hbox.it
      have hkn : k ≤ vi.dims.nt := hk.trans mt_le
      refine (rotDilate_spec hnt (h.below hwell hin) vi.mt).2 _ _ k hslt htlt hbit hk ?_
      rcases hnear with heq | heq
      · exact Or.inl heq
      · right
        rw [heq, Nat.mod_add_mod, Nat.sub_add_cancel (by omega), Nat.add_mod_right,
          Nat.mod_eq_of_lt hslt]

end Masks

end ValueIteration
