import Mathlib.Algebra.Order.Monoid.WithTop
import Mathlib.Algebra.Order.Field.Basic
import Mathlib.Algebra.Order.BigOperators.Group.List
import Mathlib.Data.List.Nodup
import Mathlib.Tactic.Common

/-!
# Sparse buffers

A buffer over an index type is read through a list of the indices that carry mass. A
scatter pass empties one buffer into another and collects the list of the second one on
the way: a deposit that finds a zero lists its index. The collected list is right when the
second buffer was zero to begin with.
-/

set_option autoImplicit false
set_option linter.unusedSectionVars false

namespace Sparse

variable {ι M K : Type} [DecidableEq ι]

/-- Rewrite a buffer at the indices of a list, one after the other. -/
def modify (f : ι → M → M) (l : List ι) (b : ι → M) : ι → M :=
  l.foldl (fun b i => Function.update b i (f i (b i))) b

theorem modify_of_not_mem (f : ι → M → M) {l : List ι} {j : ι} (h : j ∉ l) (b : ι → M) :
    modify f l b j = b j := by
  induction l generalizing b with
  | nil => rfl
  | cons i l ih =>
    have hne : j ≠ i := List.ne_of_not_mem_cons h
    rw [modify, List.foldl_cons, ← modify, ih (List.not_mem_of_not_mem_cons h),
      Function.update_of_ne hne]

theorem modify_of_mem (f : ι → M → M) {l : List ι} (hl : l.Nodup) {j : ι} (h : j ∈ l)
    (b : ι → M) : modify f l b j = f j (b j) := by
  induction l generalizing b with
  | nil => exact absurd h List.not_mem_nil
  | cons i l ih =>
    obtain ⟨hi, hl⟩ := List.nodup_cons.mp hl
    rw [modify, List.foldl_cons, ← modify]
    by_cases hji : j = i
    · rw [hji, modify_of_not_mem f hi, Function.update_self]
    · rw [ih hl ((List.mem_cons.mp h).resolve_left hji), Function.update_of_ne hji]

/-- `Vec::retain` with a visit that also rewrites the entry. -/
def retain (visit : ι → M → M × Bool) (l : List ι) (b : ι → M) : (ι → M) × List ι :=
  l.foldl (fun r i =>
    let v := visit i (r.1 i)
    (Function.update r.1 i v.1, if v.2 then r.2 ++ [i] else r.2)) (b, [])

theorem retain_eq (visit : ι → M → M × Bool) {l : List ι} (hl : l.Nodup) (b : ι → M) :
    retain visit l b = (modify (fun i x => (visit i x).1) l b, l.filter fun i => (visit i (b i)).2) := by
  have hgen : ∀ (l : List ι) (b : ι → M) (kept : List ι), l.Nodup →
      l.foldl (fun (r : (ι → M) × List ι) i =>
        let v := visit i (r.1 i)
        (Function.update r.1 i v.1, if v.2 then r.2 ++ [i] else r.2)) (b, kept) =
        (modify (fun i x => (visit i x).1) l b, kept ++ l.filter fun i => (visit i (b i)).2) := by
    intro l
    induction l with
    | nil => exact fun b kept _ => by simp [modify]
    | cons i l ih =>
      intro b kept hl
      obtain ⟨hi, hl⟩ := List.nodup_cons.mp hl
      rw [List.foldl_cons, ih _ _ hl, modify, modify, List.foldl_cons]
      congr 1
      have hrest : (l.filter fun j => (visit j (Function.update b i (visit i (b i)).1 j)).2) =
          l.filter fun j => (visit j (b j)).2 := by
        apply List.filter_congr
        intro j hj
        rw [Function.update_of_ne (ne_of_mem_of_not_mem hj hi)]
      rw [List.filter_cons, hrest]
      split <;> simp
  have h := hgen l b [] hl
  rwa [List.nil_append] at h

section
variable [Zero M]

/-- Every index with a value is listed, and listed once. -/
structure Lists (b : ι → M) (l : List ι) : Prop where
  nodup : l.Nodup
  zero : ∀ i, i ∉ l → b i = 0

/-- The listed indices are exactly those with a positive value, and no other has one. -/
structure Supports [LT M] (b : ι → M) (l : List ι) : Prop extends Lists b l where
  pos : ∀ i ∈ l, 0 < b i

theorem Lists.erase {b : ι → M} {l : List ι} (h : Lists b l) (j : ι) :
    modify (fun _ _ => 0) l b j = 0 := by
  by_cases hj : j ∈ l
  · exact modify_of_mem _ h.nodup hj b
  · rw [modify_of_not_mem _ hj, h.zero j hj]

theorem Lists.retain {b : ι → M} {l : List ι} (h : Lists b l) {visit : ι → M → M × Bool}
    (hdrop : ∀ i ∈ l, (visit i (b i)).2 = false → (visit i (b i)).1 = 0) :
    Lists (retain visit l b).1 (retain visit l b).2 := by
  rw [retain_eq visit h.nodup]
  refine ⟨h.nodup.filter _, fun i hi => ?_⟩
  simp only at hi ⊢
  by_cases hl : i ∈ l
  · rw [modify_of_mem _ h.nodup hl]
    apply hdrop i hl
    by_contra hkeep
    exact hi (List.mem_filter.mpr ⟨hl, Bool.of_not_eq_false hkeep⟩)
  · rw [modify_of_not_mem _ hl, h.zero i hl]

theorem mem_of_mem_retain {b : ι → M} {l : List ι} (h : Lists b l) {visit : ι → M → M × Bool}
    {i : ι} (hi : i ∈ (Sparse.retain visit l b).2) : i ∈ l := by
  rw [retain_eq visit h.nodup] at hi
  exact List.mem_of_mem_filter hi

/-- Dropping everything at or below a threshold leaves the positive entries. -/
theorem Lists.prune {b : ι → M} [LinearOrder M] {l : List ι} (h : Lists b l) {thr : M}
    (hthr : 0 ≤ thr) :
    Supports (Sparse.retain (fun _ x => if x ≤ thr then (0, false) else (x, true)) l b).1
      (Sparse.retain (fun _ x => if x ≤ thr then (0, false) else (x, true)) l b).2 := by
  refine ⟨h.retain ?_, ?_⟩
  · intro i _ hi
    split at hi
    · next hle => rw [if_pos hle]
    · exact Bool.noConfusion hi
  · rw [retain_eq _ h.nodup]
    intro i hi
    obtain ⟨hl, hkeep⟩ := List.mem_filter.mp hi
    simp only
    rw [modify_of_mem _ h.nodup hl]
    by_cases hle : b i ≤ thr
    · rw [if_pos hle] at hkeep
      exact Bool.noConfusion hkeep
    · rw [if_neg hle]
      exact hthr.trans_lt (not_le.mp hle)

theorem Supports.of_zero [LT M] {b : ι → M} (h : ∀ i, b i = 0) : Supports b [] :=
  ⟨⟨List.nodup_nil, fun i _ => h i⟩, fun _ hi => absurd hi List.not_mem_nil⟩

/-- Rewriting along a list that covers the listed indices. -/
theorem Supports.rewrite [LT M] {b : ι → M} {l l' : List ι} (h : Supports b l) (hl' : l'.Nodup)
    (hsub : ∀ i ∈ l, i ∈ l') {f : ι → M → M} (hf : ∀ i ∈ l', 0 < f i (b i)) :
    Supports (modify f l' b) l' := by
  refine ⟨⟨hl', fun i hi => ?_⟩, fun i hi => ?_⟩
  · rw [modify_of_not_mem f hi]
    exact h.zero i fun hil => hi (hsub i hil)
  · rw [modify_of_mem f hl' hi]
    exact hf i hi

theorem Supports.nonneg [Preorder M] {b : ι → M} {l : List ι} (h : Supports b l) (i : ι) :
    0 ≤ b i := by
  by_cases hi : i ∈ l
  · exact (h.pos i hi).le
  · rw [h.zero i hi]

/-- Positive in value is the same as listed. -/
theorem Supports.mem_iff [Preorder M] {b : ι → M} {l : List ι} (h : Supports b l) {i : ι} :
    i ∈ l ↔ b i ≠ 0 := by
  constructor
  · exact fun hi => (h.pos i hi).ne'
  · exact fun hi => by_contra fun hl => hi (h.zero i hl)

end

section
variable [Field K] [LinearOrder K]

/-- Divide the listed entries by their sum, when there is one. -/
def normalize (l : List ι) (b : ι → K) : ι → K :=
  let sum := (l.map b).sum
  if 0 < sum then modify (fun _ x => x / sum) l b else b

theorem Supports.normalize [IsStrictOrderedRing K] {b : ι → K} {l : List ι} (h : Supports b l) :
    Supports (normalize l b) l := by
  unfold Sparse.normalize
  simp only
  split
  · next hsum => exact h.rewrite h.nodup (fun _ hi => hi) fun i hi => div_pos (h.pos i hi) hsum
  · exact h

end

section Deposits
variable [AddCommMonoid K] [LinearOrder K]

/-- Add to an entry; an entry that was zero gets listed. -/
def deposit (s : (ι → WithTop K) × List ι) (d : ι × K) : (ι → WithTop K) × List ι :=
  if 0 < d.2 then
    (Function.update s.1 d.1 (s.1 d.1 + d.2), if s.1 d.1 = 0 then s.2 ++ [d.1] else s.2)
  else s

/-- What is listed was deposited here: its value is finite and positive. -/
structure Collected (s : (ι → WithTop K) × List ι) : Prop where
  nodup : s.2.Nodup
  pos : ∀ i ∈ s.2, ∃ x : K, 0 < x ∧ s.1 i = x

theorem Collected.start (scratch : ι → WithTop K) : Collected (scratch, ([] : List ι)) :=
  ⟨List.nodup_nil, fun _ hi => absurd hi List.not_mem_nil⟩

theorem mem_deposit {s : (ι → WithTop K) × List ι} {d : ι × K} {i : ι} :
    i ∈ (deposit s d).2 ↔ i ∈ s.2 ∨ i = d.1 ∧ 0 < d.2 ∧ s.1 d.1 = 0 := by
  unfold deposit
  split
  · next hd =>
    simp only
    split
    · next hz => simp [hd, hz]
    · next hz => simp [hz]
  · next hd => simp [hd]

variable [IsOrderedAddMonoid K]

theorem Collected.deposit {s : (ι → WithTop K) × List ι} (h : Collected s) (d : ι × K) :
    Collected (deposit s d) := by
  by_cases hd : 0 < d.2
  · refine ⟨?_, ?_⟩
    · unfold Sparse.deposit
      rw [if_pos hd]
      simp only
      split
      · next hz =>
        apply List.nodup_append'.mpr ⟨h.nodup, List.nodup_singleton _, ?_⟩
        rw [List.disjoint_singleton]
        intro hmem
        obtain ⟨x, hx, hval⟩ := h.pos _ hmem
        rw [hz] at hval
        exact hx.ne (WithTop.coe_inj.mp hval)
      · exact h.nodup
    · intro i hi
      rw [mem_deposit] at hi
      have hval : (Sparse.deposit s d).1 i =
          if i = d.1 then s.1 d.1 + d.2 else s.1 i := by
        unfold Sparse.deposit
        rw [if_pos hd]
        exact Function.update_apply _ _ _ _
      rw [hval]
      by_cases hid : i = d.1
      · rw [if_pos hid]
        rcases hi with hi | ⟨_, _, hz⟩
        · obtain ⟨x, hx, hval⟩ := h.pos i hi
          rw [← hid, hval]
          exact ⟨x + d.2, add_pos_of_pos_of_nonneg hx hd.le, (WithTop.coe_add x d.2).symm⟩
        · exact ⟨d.2, hd, by rw [hz, zero_add]⟩
      · rw [if_neg hid]
        exact h.pos i (hi.resolve_right fun hr => hid hr.1)
  · unfold Sparse.deposit
    rwa [if_neg hd]

theorem Collected.foldl {s : (ι → WithTop K) × List ι} (h : Collected s) (ds : List (ι × K)) :
    Collected (ds.foldl Sparse.deposit s) := by
  induction ds generalizing s with
  | nil => exact h
  | cons d ds ih => exact ih (h.deposit d)

/-- Only targets of positive deposits get listed. -/
theorem mem_foldl_deposit {s : (ι → WithTop K) × List ι} {ds : List (ι × K)} {i : ι}
    (hi : i ∈ (ds.foldl deposit s).2) : i ∈ s.2 ∨ ∃ m, (i, m) ∈ ds := by
  induction ds generalizing s with
  | nil => exact Or.inl hi
  | cons d ds ih =>
    rcases ih hi with h | ⟨m, hm⟩
    · rcases mem_deposit.mp h with h | ⟨rfl, _⟩
      · exact Or.inl h
      · exact Or.inr ⟨d.2, List.mem_cons_self⟩
    · exact Or.inr ⟨m, List.mem_cons_of_mem _ hm⟩

theorem mem_foldl_of_mem {s : (ι → WithTop K) × List ι} (ds : List (ι × K)) {i : ι}
    (hi : i ∈ s.2) : i ∈ (ds.foldl deposit s).2 := by
  induction ds generalizing s with
  | nil => exact hi
  | cons d ds ih => exact ih (mem_deposit.mpr (Or.inl hi))

/-- What is not listed is zero; this is where the buffer has to start clean. -/
def Clean (s : (ι → WithTop K) × List ι) : Prop := ∀ i, i ∉ s.2 → s.1 i = 0

theorem Clean.deposit {s : (ι → WithTop K) × List ι} (h : Clean s) (d : ι × K) :
    Clean (Sparse.deposit s d) := by
  intro i hi
  rw [mem_deposit, not_or] at hi
  obtain ⟨hs, hd⟩ := hi
  unfold Sparse.deposit
  split
  · next hpos =>
    by_cases hid : i = d.1
    · exact absurd ⟨hid, hpos, hid ▸ h i hs⟩ hd
    · exact (Function.update_of_ne hid _ _).trans (h i hs)
  · exact h i hs

theorem Clean.foldl {s : (ι → WithTop K) × List ι} (h : Clean s) (ds : List (ι × K)) :
    Clean (ds.foldl Sparse.deposit s) := by
  induction ds generalizing s with
  | nil => exact h
  | cons d ds ih => exact ih (h.deposit d)

/-- No deposit into a clean buffer is lost. -/
theorem Clean.mem_foldl {s : (ι → WithTop K) × List ι} (h : Clean s) (hc : Collected s)
    {ds : List (ι × K)} {i : ι} {m : K} (hd : (i, m) ∈ ds) (hm : 0 < m) :
    i ∈ (ds.foldl Sparse.deposit s).2 := by
  induction ds generalizing s with
  | nil => exact absurd hd List.not_mem_nil
  | cons d ds ih =>
    rw [List.foldl_cons]
    rcases List.mem_cons.mp hd with rfl | hd
    · apply mem_foldl_of_mem
      by_cases hi : i ∈ s.2
      · exact mem_deposit.mpr (Or.inl hi)
      · exact mem_deposit.mpr (Or.inr ⟨rfl, hm, h i hi⟩)
    · exact ih (h.deposit d) (hc.deposit d) hd

end Deposits

section Scatter
variable [AddCommMonoid K] [LinearOrder K]

/-- Empty a buffer entry by entry and deposit what each one emits. -/
def scatter (emit : ι → K → List (ι × K)) (active : List ι) (b : ι → K)
    (scratch : ι → WithTop K) : (ι → K) × (ι → WithTop K) × List ι :=
  active.foldl (fun st i =>
    let w := st.1 i
    let b := Function.update st.1 i 0
    if w ≤ 0 then (b, st.2) else (b, (emit i w).foldl deposit st.2)) (b, scratch, [])

theorem scatter_eq (emit : ι → K → List (ι × K)) {active : List ι} (hl : active.Nodup)
    {b : ι → K} (hpos : ∀ i ∈ active, 0 < b i) (scratch : ι → WithTop K) :
    scatter emit active b scratch = (modify (fun _ _ => 0) active b,
      (active.flatMap fun i => emit i (b i)).foldl deposit (scratch, [])) := by
  have hgen : ∀ (active : List ι) (b : ι → K) (c : (ι → WithTop K) × List ι), active.Nodup →
      (∀ i ∈ active, 0 < b i) →
      active.foldl (fun (st : (ι → K) × (ι → WithTop K) × List ι) i =>
        let w := st.1 i
        let b := Function.update st.1 i 0
        if w ≤ 0 then (b, st.2) else (b, (emit i w).foldl deposit st.2)) (b, c) =
        (modify (fun _ _ => 0) active b,
          (active.flatMap fun i => emit i (b i)).foldl deposit c) := by
    intro active
    induction active with
    | nil => exact fun b c _ _ => by simp [modify]
    | cons i active ih =>
      intro b c hl hpos
      obtain ⟨hi, hl⟩ := List.nodup_cons.mp hl
      have hb : ∀ j ∈ active, Function.update b i 0 j = b j := fun j hj =>
        Function.update_of_ne (ne_of_mem_of_not_mem hj hi) _ _
      have hrest : (active.flatMap fun j => emit j (Function.update b i 0 j)) =
          active.flatMap fun j => emit j (b j) :=
        List.flatMap_congr fun j hj => by rw [hb j hj]
      rw [List.foldl_cons]
      simp only [if_neg (not_le.mpr (hpos i List.mem_cons_self))]
      rw [ih _ _ hl, hrest, List.flatMap_cons, List.foldl_append]
      · rfl
      · intro j hj
        rw [hb j hj]
        exact hpos j (List.mem_cons_of_mem _ hj)
  exact hgen active b (scratch, []) hl hpos

variable [IsOrderedAddMonoid K]

/-- A scatter pass into a zero buffer: the old buffer ends zero, the new one is supported
by the collected list, and that list holds only targets of the pass. -/
theorem Supports.scatter {b : ι → K} {active : List ι} (h : Supports b active)
    {scratch : ι → WithTop K} (hz : ∀ i, scratch i = 0) (emit : ι → K → List (ι × K)) :
    (∀ i, (scatter emit active b scratch).1 i = 0) ∧
      Supports (fun i => ((Sparse.scatter emit active b scratch).2.1 i).untopD 0)
        (Sparse.scatter emit active b scratch).2.2 ∧
      ∀ i ∈ (Sparse.scatter emit active b scratch).2.2,
        ∃ j ∈ active, ∃ m, (i, m) ∈ emit j (b j) := by
  rw [scatter_eq emit h.nodup h.pos]
  have hcol := (Collected.start scratch).foldl (active.flatMap fun i => emit i (b i))
  have hclean : Clean (scratch, ([] : List ι)) := fun i _ => hz i
  refine ⟨h.erase, ⟨⟨hcol.nodup, fun i hi => ?_⟩, fun i hi => ?_⟩, fun i hi => ?_⟩
  · simp only
    rw [hclean.foldl _ i hi]
    rfl
  · obtain ⟨x, hx, hval⟩ := hcol.pos i hi
    simp only
    rw [hval]
    exact hx
  · rcases mem_foldl_deposit hi with hi | ⟨m, hm⟩
    · exact absurd hi List.not_mem_nil
    · obtain ⟨j, hj, hjm⟩ := List.mem_flatMap.mp hm
      exact ⟨j, hj, m, hjm⟩

/-- Add the collected entries of a scratch buffer to another buffer, and put the scratch
entries back to zero. -/
def merge (newc : List ι) (b : ι → K) (scratch : ι → WithTop K) (active : List ι) :
    (ι → K) × (ι → WithTop K) × List ι :=
  newc.foldl (fun st j =>
    let add := st.2.1 j
    let scratch := Function.update st.2.1 j 0
    if 0 < add then
      (Function.update st.1 j (st.1 j + add.untopD 0), scratch,
        if st.1 j = 0 then st.2.2 ++ [j] else st.2.2)
    else (st.1, scratch, st.2.2)) (b, scratch, active)

theorem Supports.merge {newc : List ι} : ∀ {b : ι → K} {active : List ι}
    {scratch : ι → WithTop K}, Supports b active → Collected (scratch, newc) →
    Supports (merge newc b scratch active).1 (Sparse.merge newc b scratch active).2.2 ∧
      (∀ j, (Sparse.merge newc b scratch active).2.1 j = if j ∈ newc then 0 else scratch j) ∧
      ∀ j, j ∈ (Sparse.merge newc b scratch active).2.2 ↔ j ∈ active ∨ j ∈ newc := by
  induction newc with
  | nil =>
    intro b active scratch h _
    exact ⟨h, fun j => by simp [Sparse.merge], fun j => by simp [Sparse.merge]⟩
  | cons i newc ih =>
    intro b active scratch h hc
    obtain ⟨hi, hnd⟩ := List.nodup_cons.mp hc.nodup
    obtain ⟨x, hx, hval⟩ := hc.pos i List.mem_cons_self
    have hadd : (0 : WithTop K) < scratch i := by
      simp only at hval
      rw [hval]
      exact_mod_cast hx
    have hstep : Supports (Function.update b i (b i + (scratch i).untopD 0))
        (if b i = 0 then active ++ [i] else active) := by
      have hpos : 0 < b i + (scratch i).untopD 0 := by
        simp only at hval
        rw [hval]
        exact lt_of_lt_of_le hx (le_add_of_nonneg_left (h.nonneg i))
      refine ⟨⟨?_, fun j hj => ?_⟩, fun j hj => ?_⟩
      · split
        · next hbi =>
          apply List.nodup_append'.mpr ⟨h.nodup, List.nodup_singleton _, ?_⟩
          rw [List.disjoint_singleton]
          exact fun hmem => h.mem_iff.mp hmem hbi
        · exact h.nodup
      · have hmem : j ∉ active ∧ j ≠ i := by
          split at hj
          · simpa using hj
          · next hbi => exact ⟨hj, fun hji => hj (hji ▸ h.mem_iff.mpr hbi)⟩
        rw [Function.update_of_ne hmem.2]
        exact h.zero j hmem.1
      · by_cases hji : j = i
        · rw [hji, Function.update_self]
          exact hpos
        · rw [Function.update_of_ne hji]
          apply h.pos j
          split at hj
          · exact (List.mem_append.mp hj).resolve_right fun hr => hji (List.mem_singleton.mp hr)
          · exact hj
    have hcol : Collected (Function.update scratch i 0, newc) := by
      refine ⟨hnd, fun j hj => ?_⟩
      obtain ⟨y, hy, hjy⟩ := hc.pos j (List.mem_cons_of_mem _ hj)
      exact ⟨y, hy, (Function.update_of_ne (ne_of_mem_of_not_mem hj hi) _ _).trans hjy⟩
    obtain ⟨h1, h2, h3⟩ := ih hstep hcol
    have heq : Sparse.merge (i :: newc) b scratch active =
        Sparse.merge newc (Function.update b i (b i + (scratch i).untopD 0))
          (Function.update scratch i 0) (if b i = 0 then active ++ [i] else active) := by
      rw [Sparse.merge, List.foldl_cons]
      simp only [if_pos hadd]
      rfl
    rw [heq]
    refine ⟨h1, fun j => ?_, fun j => ?_⟩
    · rw [h2 j]
      by_cases hj : j ∈ newc
      · rw [if_pos hj, if_pos (List.mem_cons_of_mem _ hj)]
      · rw [if_neg hj]
        by_cases hji : j = i
        · rw [hji, Function.update_self, if_pos List.mem_cons_self]
        · rw [Function.update_of_ne hji, if_neg (by simp [hji, hj])]
    · rw [h3 j]
      split
      · simp only [List.mem_append, List.mem_cons, List.not_mem_nil, or_false]
        tauto
      · next hbi =>
        have hmem := h.mem_iff.mpr hbi
        rw [List.mem_cons]
        constructor
        · exact fun hj => hj.imp_right Or.inr
        · rintro (hj | rfl | hj)
          · exact Or.inl hj
          · exact Or.inl hmem
          · exact Or.inr hj

end Scatter

end Sparse
