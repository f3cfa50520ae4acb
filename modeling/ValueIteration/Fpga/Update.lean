import ValueIteration.Fpga.Cell

/-!
# The cell update relaxes the states of a cell

`vi_bellman_cell` is the in-place relaxation of the cell's headings; the update of a state
is monotone and looks only at states of the map.
-/

set_option autoImplicit false

namespace ValueIteration.Fpga

open Replica

/-! ## Sixteen-bit costs -/

theorem le_maxValue (a : U16) : a ≤ maxValue := Fin.le_last a

/-- The penalty added on entering a cell. -/
def entry (np : U16) : Nat := if np = penaltyGoal then 0 else np.val

/-- Away from the sentinels the cost is the saturated sum. -/
theorem costOf_val {nv np : U16} (hv : nv ≠ maxValue) (hp : np ≠ penaltyObstacle) :
    (costOf nv np).val = min 65534 (nv.val + entry np) := by
  have hentry : (if np = penaltyGoal then (0 : U16) else np).val = entry np := by
    unfold entry
    split
    · rfl
    · rfl
  unfold costOf
  rw [if_neg (by simp [hv, hp])]
  simp only [hentry]
  have hmax : maxValue.val = 65535 := rfl
  split
  · next h =>
    have hpred : (maxValue - 1 : U16).val = 65534 := rfl
    omega
  · next h =>
    rw [Fin.val_ofNat]
    omega

theorem costOf_eq_maxValue_iff {nv np : U16} :
    costOf nv np = maxValue ↔ nv = maxValue ∨ np = penaltyObstacle := by
  constructor
  · intro h
    by_contra hnot
    rw [not_or] at hnot
    have hval := costOf_val hnot.1 hnot.2
    have hmax : maxValue.val = 65535 := rfl
    rw [h] at hval
    omega
  · intro h
    exact if_pos h

theorem costOf_mono {nv nv' : U16} (h : nv ≤ nv') (np : U16) : costOf nv np ≤ costOf nv' np := by
  by_cases hmax : costOf nv' np = maxValue
  · rw [hmax]
    exact le_maxValue _
  · have hne : ¬ (nv' = maxValue ∨ np = penaltyObstacle) :=
      fun hor => hmax (costOf_eq_maxValue_iff.mpr hor)
    rw [not_or] at hne
    have hnv : nv ≠ maxValue := by
      intro heq
      rw [heq] at h
      exact hne.1 (le_antisymm (le_maxValue _) h)
    rw [Fin.le_def] at h ⊢
    rw [costOf_val hnv hne.2, costOf_val hne.1 hne.2]
    omega

theorem eq_of_gap_eq_zero {a b : U16} (h : gap a b = 0) : b = a := by
  have hval : (gap a b).val = 0 := congrArg Fin.val h
  unfold gap at hval
  apply Fin.ext
  split at hval
  · next hlt =>
    rw [Fin.sub_val_of_le (le_of_lt hlt)] at hval
    have := Fin.lt_def.mp hlt
    omega
  · next hle =>
    rw [Fin.sub_val_of_le (not_lt.mp hle)] at hval
    have := Fin.le_def.mp (not_lt.mp hle)
    omega

theorem gap_self (a : U16) : gap a a = 0 := by
  apply Fin.ext
  unfold gap
  rw [if_neg (lt_irrefl a), Fin.sub_val_of_le (le_refl a), Nat.sub_self]
  rfl

theorem ite_gt_eq_max (a b : U16) : (if a > b then a else b) = max b a := by
  rw [max_def]
  split
  · next h => rw [if_pos (le_of_lt h)]
  · next h =>
    split
    · next h' => exact le_antisymm h' (not_lt.mp h)
    · rfl

theorem ite_lt_eq_min (a b : U16) : (if a < b then a else b) = min a b := by
  rw [min_def]
  split
  · next h => rw [if_pos (le_of_lt h)]
  · next h =>
    split
    · next h' => exact le_antisymm (not_lt.mp h) h'
    · rfl

/-! ## Smallest of a list of costs -/

section FoldMin

variable {g g' : Nat → U16} {l : List Nat}

theorem foldl_min_le_init (b : U16) : l.foldl (fun b a => min b (g a)) b ≤ b := by
  induction l generalizing b with
  | nil => exact le_refl _
  | cons a l ih => exact (ih _).trans (min_le_left _ _)

theorem foldl_min_le {a : Nat} (ha : a ∈ l) (b : U16) :
    l.foldl (fun b a => min b (g a)) b ≤ g a := by
  induction l generalizing b with
  | nil => cases ha
  | cons c l ih =>
    rw [List.mem_cons] at ha
    cases ha with
    | inl h =>
      rw [List.foldl_cons, h]
      exact (foldl_min_le_init _).trans (min_le_right _ _)
    | inr h => exact ih h _

theorem foldl_min_attained (b : U16) : l.foldl (fun b a => min b (g a)) b = b ∨
    ∃ a ∈ l, l.foldl (fun b a => min b (g a)) b = g a := by
  induction l generalizing b with
  | nil => exact Or.inl rfl
  | cons a l ih =>
    rw [List.foldl_cons]
    rcases ih (min b (g a)) with h | ⟨c, hc, h⟩
    · rw [h]
      rcases min_choice b (g a) with hm | hm
      · exact Or.inl hm
      · exact Or.inr ⟨a, by simp, hm⟩
    · exact Or.inr ⟨c, by simp [hc], h⟩

theorem foldl_min_mono (h : ∀ a ∈ l, g a ≤ g' a) {b b' : U16} (hb : b ≤ b') :
    l.foldl (fun b a => min b (g a)) b ≤ l.foldl (fun b a => min b (g' a)) b' := by
  induction l generalizing b b' with
  | nil => exact hb
  | cons a l ih =>
    exact ih (fun c hc => h c (by simp [hc])) (min_le_min hb (h a (by simp)))

end FoldMin

namespace Scene

variable {sc : Scene}

/-! ## The update of a state -/

theorem best_le_cost {a : Nat} (ha : a < nActions) (f : Pos → U16) (s : Pos) :
    sc.best f s ≤ sc.cost f s a := foldl_min_le (List.mem_range.mpr ha) _

theorem best_attained (f : Pos → U16) (s : Pos) :
    sc.best f s = maxValue ∨ ∃ a < nActions, sc.best f s = sc.cost f s a := by
  rcases foldl_min_attained (g := sc.cost f s) (l := List.range nActions) maxValue with h | h
  · exact Or.inl h
  · obtain ⟨a, ha, h⟩ := h
    exact Or.inr ⟨a, List.mem_range.mp ha, h⟩

theorem cost_of_inMap {s : Pos} {a : Nat}
    (hin : sc.InMap (sc.succ s a).ix (sc.succ s a).iy) (f : Pos → U16) :
    sc.cost f s a = costOf (f (sc.succ s a)) (sc.pen (sc.succ s a).ix (sc.succ s a).iy) :=
  if_pos hin

theorem cost_of_out {s : Pos} {a : Nat}
    (hout : ¬ sc.InMap (sc.succ s a).ix (sc.succ s a).iy) (f : Pos → U16) :
    sc.cost f s a = maxValue := if_neg hout

theorem cost_mono {f g : Pos → U16} (h : f ≤ g) (s : Pos) (a : Nat) :
    sc.cost f s a ≤ sc.cost g s a := by
  simp only [cost]
  split
  · exact costOf_mono (h _) _
  · exact le_refl _

theorem update_monotone : Monotone sc.update := by
  intro f g h s
  simp only [update]
  split
  · exact h s
  · exact foldl_min_mono (fun a _ => cost_mono h s a) (le_refl _)

theorem update_of_skip {s : Pos} (h : sc.pen s.ix s.iy ≥ penaltyGoal) (f : Pos → U16) :
    sc.update f s = f s := if_pos h

theorem update_of_free {s : Pos} (h : ¬ sc.pen s.ix s.iy ≥ penaltyGoal) (f : Pos → U16) :
    sc.update f s = sc.best f s := if_neg h

theorem contains_iff {s : Pos} :
    sc.dims.Contains s ↔ sc.InMap s.ix s.iy ∧ 0 ≤ s.it ∧ s.it < 60 := by
  simp only [Dims.Contains, dims, InMap, nTheta]
  exact and_assoc.symm

/-- Under the contract an action that stays on the map leads to a state of the table. -/
theorem Contract.succ_contains (h : sc.Contract) {s : Pos} (ht : 0 ≤ s.it ∧ s.it < 60) {a : Nat}
    (ha : a < nActions) (hin : sc.InMap (sc.succ s a).ix (sc.succ s a).iy) :
    sc.dims.Contains (sc.succ s a) := by
  rw [contains_iff]
  refine ⟨hin, ?_⟩
  have hit : s.it.toNat < nTheta := by simp only [nTheta]; omega
  have hturn := h.heading a ha s.it.toNat hit
  rw [Int.toNat_of_nonneg ht.1] at hturn
  simp only [succ, hturn]
  omega

theorem cost_congr {f g : Pos → U16} {s : Pos} {a : Nat}
    (h : sc.InMap (sc.succ s a).ix (sc.succ s a).iy → f (sc.succ s a) = g (sc.succ s a)) :
    sc.cost f s a = sc.cost g s a := by
  simp only [cost]
  split
  · next hin => rw [h hin]
  · rfl

theorem best_congr {f g : Pos → U16} {s : Pos}
    (h : ∀ a < nActions, sc.cost f s a = sc.cost g s a) : sc.best f s = sc.best g s :=
  le_antisymm (foldl_min_mono (fun a ha => (h a (List.mem_range.mp ha)).le) (le_refl _))
    (foldl_min_mono (fun a ha => (h a (List.mem_range.mp ha)).ge) (le_refl _))

/-- The update looks only at the state itself and, on the map, where its actions lead. -/
theorem reads_of_succ {L : Pos → Prop} {s : Pos} (hs : L s)
    (h : ∀ a < nActions, sc.InMap (sc.succ s a).ix (sc.succ s a).iy → L (sc.succ s a)) :
    Reads sc.update L s := by
  intro f g hfg
  simp only [update]
  split
  · exact hfg s hs
  · apply best_congr
    intro a ha
    exact cost_congr fun hin => hfg _ (h a ha hin)

theorem Contract.reads_contains (h : sc.Contract) {s : Pos} (hs : sc.dims.Contains s) :
    Reads sc.update sc.dims.Contains s :=
  reads_of_succ hs fun _ ha hin => h.succ_contains (contains_iff.mp hs).2 ha hin

/-! ## `vi_bellman_cell` -/

theorem succ_nat (x y : Int) (it a : Nat) : sc.succ ⟨x, y, it⟩ a =
    ⟨x + sc.dix a it, y + sc.diy a it, nextTheta it (sc.dit a it)⟩ := by
  simp only [succ, Int.toNat_natCast]

theorem tryAction_eq (value : Grid U16) (x y : Int) (it : Nat) (b : U16) (a : Nat) :
    sc.tryAction value x y it b a = min b (sc.cost value.get ⟨x, y, it⟩ a) := by
  have hsucc : sc.succ ⟨x, y, it⟩ a = _ := succ_nat x y it a
  simp only [tryAction, ite_lt_eq_min]
  by_cases hin : sc.InMap (x + sc.dix a it) (y + sc.diy a it)
  · have hnot : ¬ (x + sc.dix a it < 0 ∨ x + sc.dix a it ≥ sc.mapX ∨
        y + sc.diy a it < 0 ∨ y + sc.diy a it ≥ sc.mapY) := by
      unfold InMap at hin
      omega
    rw [if_neg hnot, cost_of_inMap (by rw [hsucc]; exact hin), hsucc]
    by_cases hor : value.get ⟨x + sc.dix a it, y + sc.diy a it, nextTheta it (sc.dit a it)⟩ =
        maxValue ∨ sc.pen (x + sc.dix a it) (y + sc.diy a it) = penaltyObstacle
    · rw [if_pos hor, costOf_eq_maxValue_iff.mpr hor, min_eq_left (le_maxValue _)]
    · rw [if_neg hor, costOf, if_neg hor, min_comm]
      rfl
  · have hout : x + sc.dix a it < 0 ∨ x + sc.dix a it ≥ sc.mapX ∨
        y + sc.diy a it < 0 ∨ y + sc.diy a it ≥ sc.mapY := by
      unfold InMap at hin
      omega
    rw [if_pos hout, cost_of_out (by rw [hsucc]; exact hin), min_eq_left (le_maxValue _)]

/-- A table and the largest change so far, as the code and as a sheet hold them. -/
structure Shows (sc : Scene) (v : Grid U16 × U16) (r : Sheet Pos U16 U16) : Prop where
  dims : v.1.dims = sc.dims
  get : ∀ p, sc.dims.Contains p → v.1.get p = r.copy p
  delta : v.2 = r.delta

/-- The states of a cell. -/
def column (x y : Int) : List Pos := (List.range nTheta).map fun (it : Nat) => ⟨x, y, it⟩

theorem mem_column {x y : Int} {s : Pos} :
    s ∈ column x y ↔ s.ix = x ∧ s.iy = y ∧ 0 ≤ s.it ∧ s.it < 60 := by
  obtain ⟨sx, sy, st⟩ := s
  simp only [column, List.mem_map, List.mem_range, nTheta, Pos.mk.injEq]
  constructor
  · rintro ⟨it, hit, rfl, rfl, rfl⟩
    omega
  · rintro ⟨rfl, rfl, h0, h1⟩
    exact ⟨st.toNat, by omega, rfl, rfl, by omega⟩

theorem contains_of_mem_column {x y : Int} (hin : sc.InMap x y) {s : Pos}
    (hs : s ∈ column x y) : sc.dims.Contains s := by
  obtain ⟨rfl, rfl, ht⟩ := mem_column.mp hs
  exact contains_iff.mpr ⟨hin, ht⟩

theorem Shows.updateHeading (hc : sc.Contract) {v : Grid U16 × U16} {r : Sheet Pos U16 U16}
    (h : Shows sc v r) {x y : Int} {it : Nat} (hs : sc.dims.Contains ⟨x, y, it⟩)
    (hfree : ¬ sc.pen x y ≥ penaltyGoal) :
    Shows sc (sc.updateHeading x y v it) (relaxOne sc.update gap r ⟨x, y, it⟩) := by
  have hbest : (List.range nActions).foldl (sc.tryAction v.1 x y it) maxValue =
      sc.update r.copy ⟨x, y, it⟩ := by
    have hread : sc.update v.1.get ⟨x, y, it⟩ = sc.update r.copy ⟨x, y, it⟩ :=
      hc.reads_contains hs _ _ h.get
    rw [← hread, update_of_free (by exact hfree), best]
    congr 1
    funext b a
    exact tryAction_eq v.1 x y it b a
  have hold := h.get _ hs
  simp only [Scene.updateHeading, relaxOne, hbest, hold]
  refine ⟨h.dims, ?_, ?_⟩
  · intro p hp
    have hp' : v.1.dims.Contains p := by rw [h.dims]; exact hp
    rw [Grid.get_set (by rw [h.dims]; exact hs) hp', h.get p hp]
    exact (Function.update_apply _ _ _ _).symm
  · rw [ite_gt_eq_max, h.delta]
    rfl

theorem relaxAll_of_skip {x y : Int} (hskip : sc.pen x y ≥ penaltyGoal) {l : List Pos}
    (hl : ∀ s ∈ l, s.ix = x ∧ s.iy = y) (f : Pos → U16) (d : U16) :
    relaxAll sc.update gap l ⟨f, d⟩ = ⟨f, d⟩ := by
  induction l with
  | nil => rfl
  | cons s l ih =>
    obtain ⟨hx, hy⟩ := hl s (by simp)
    have hkeep : sc.update f s = f s := update_of_skip (by rw [hx, hy]; exact hskip) f
    rw [relaxAll_cons]
    simp only [relaxOne, hkeep, Function.update_eq_self, gap_self]
    rw [max_eq_left (Fin.zero_le _)]
    exact ih fun t ht => hl t (by simp [ht])

/-- `vi_bellman_cell` relaxes the states of the cell, heading by heading. -/
theorem Shows.viBellmanCell (hc : sc.Contract) {value : Grid U16} {f : Pos → U16}
    (h : Shows sc (value, 0) ⟨f, 0⟩) {x y : Int} (hin : sc.InMap x y) :
    Shows sc (sc.viBellmanCell value x y) (relaxAll sc.update gap (column x y) ⟨f, 0⟩) := by
  unfold Scene.viBellmanCell
  split
  · next hskip =>
    rw [relaxAll_of_skip hskip (fun s hs => ⟨(mem_column.mp hs).1, (mem_column.mp hs).2.1⟩)]
    exact h
  · next hfree =>
    have hall : ∀ (l : List Nat), (∀ it ∈ l, it < nTheta) → ∀ {v : Grid U16 × U16}
        {r : Sheet Pos U16 U16}, Shows sc v r →
        Shows sc (l.foldl (sc.updateHeading x y) v)
          (relaxAll sc.update gap (l.map fun (it : Nat) => (⟨x, y, it⟩ : Pos)) r) := by
      intro l
      induction l with
      | nil => intro _ v r h; exact h
      | cons it l ih =>
        intro hl v r h
        have hit : it < nTheta := hl it (by simp)
        simp only [nTheta] at hit
        have hs : sc.dims.Contains ⟨x, y, it⟩ := contains_iff.mpr ⟨hin, by simp; omega⟩
        exact ih (fun t ht => hl t (by simp [ht])) (h.updateHeading hc hs hfree)
    exact hall _ (fun it hit => List.mem_range.mp hit) h

/-- Cell after cell, `vi_bellman_cell` relaxes the states of all the cells in order. -/
theorem Shows.viBellmanCells (hc : sc.Contract) {cells : List (Int × Int)}
    (hcells : ∀ c ∈ cells, sc.InMap c.1 c.2) {value : Grid U16} {f : Pos → U16}
    (h : Shows sc (value, 0) ⟨f, 0⟩) :
    Shows sc (sc.viBellmanCells cells value)
      (relaxAll sc.update gap (cells.flatMap fun c => column c.1 c.2) ⟨f, 0⟩) := by
  have hall : ∀ (l : List (Int × Int)), (∀ c ∈ l, sc.InMap c.1 c.2) →
      ∀ {v : Grid U16 × U16} {r : Sheet Pos U16 U16}, Shows sc v r →
      Shows sc (l.foldl (fun r c =>
          let q := sc.viBellmanCell r.1 c.1 c.2
          (q.1, if q.2 > r.2 then q.2 else r.2)) v)
        (relaxAll sc.update gap (l.flatMap fun c => column c.1 c.2) r) := by
    intro l
    induction l with
    | nil => intro _ v r h; exact h
    | cons c l ih =>
      intro hl v r h
      rw [List.foldl_cons, List.flatMap_cons, relaxAll_append]
      apply ih fun c' hc' => hl c' (by simp [hc'])
      have hcell : Shows sc (sc.viBellmanCell v.1 c.1 c.2)
          (relaxAll sc.update gap (column c.1 c.2) ⟨r.copy, 0⟩) :=
        Shows.viBellmanCell hc (f := r.copy) ⟨h.dims, h.get, rfl⟩ (hl c (by simp))
      have hsplit := relaxAll_delta (F := sc.update) (G := gap) (column c.1 c.2) r.copy r.delta
      rw [show r = ⟨r.copy, r.delta⟩ from rfl, hsplit]
      refine ⟨hcell.dims, hcell.get, ?_⟩
      have hdelta : (sc.viBellmanCell v.1 c.1 c.2).2 =
          (relaxAll sc.update gap (column c.1 c.2) ⟨r.copy, ⊥⟩).delta := hcell.delta
      simp only [ite_gt_eq_max, h.delta, hdelta]
  exact hall cells hcells h

end Scene

end ValueIteration.Fpga
