import Mathlib.Data.Int.Order.Basic
import Mathlib.Data.List.Flatten
import Mathlib.Order.Lattice.Nat
import Mathlib.Tactic.Common

/-!
# Loops over lists and ranges

Inclusive ranges, slices cut into chunks, and what a loop keeps when each of its steps
keeps it.
-/

set_option autoImplicit false

/-- The inclusive integer range `a..=b`. -/
def span (a b : Int) : List Int :=
  (List.range (b + 1 - a).toNat).map fun (k : Nat) => a + k

theorem mem_span {a b x : Int} : x ∈ span a b ↔ a ≤ x ∧ x ≤ b := by
  simp only [span, List.mem_map, List.mem_range]
  constructor
  · rintro ⟨k, hk, rfl⟩
    omega
  · intro h
    exact ⟨(x - a).toNat, by omega, by omega⟩

def chunks {α : Type} (n : Nat) (xs : List α) : List (List α) :=
  (List.range ((xs.length + n - 1) / n)).map fun k => (xs.drop (k * n)).take n

theorem flatten_chunks {α : Type} {n : Nat} (hn : 0 < n) (xs : List α) :
    (chunks n xs).flatten = xs := by
  have htake : ∀ k, ((List.range k).map fun j => (xs.drop (j * n)).take n).flatten =
      xs.take (k * n) := by
    intro k
    induction k with
    | zero => simp
    | succ k ih =>
      rw [List.range_succ, List.map_append, List.flatten_append, ih, Nat.succ_mul, List.take_add]
      simp
  rw [chunks, htake]
  apply List.take_of_length_le
  have h := Nat.lt_div_mul_add (a := xs.length + n - 1) hn
  omega

/-- Two nested loops are one loop over the flat index. -/
theorem flatMap_range_map {α : Type} (f : Nat → Nat → α) (n : Nat) : ∀ m,
    ((List.range m).flatMap fun y => (List.range n).map fun x => f y x) =
      (List.range (m * n)).map fun i => f (i / n) (i % n) := by
  intro m
  induction m with
  | zero => simp
  | succ m ih =>
    rw [List.range_succ, List.flatMap_append, ih, Nat.succ_mul, List.range_add, List.map_append,
      List.flatMap_singleton, List.map_map]
    congr 1
    apply List.map_congr_left
    intro x hx
    have hlt := List.mem_range.mp hx
    have hn : 0 < n := Nat.zero_lt_of_lt hlt
    simp only [Function.comp_apply]
    rw [Nat.mul_comm m n, Nat.mul_add_div hn, Nat.div_eq_of_lt hlt, Nat.mul_add_mod,
      Nat.mod_eq_of_lt hlt, Nat.add_zero]

theorem flatMap_range_flatMap {α : Type} (f : Nat → Nat → List α) (n m : Nat) :
    ((List.range m).flatMap fun y => (List.range n).flatMap fun x => f y x) =
      (List.range (m * n)).flatMap fun i => f (i / n) (i % n) := by
  have h := congrArg List.flatten (flatMap_range_map f n m)
  rw [List.flatMap_def, List.flatten_flatten, List.map_map] at h
  exact h

/-- The digits of the next flat index: the lower one counts on, or the higher one does. -/
theorem div_mod_succ {n : Nat} (hn : 0 < n) (k : Nat) :
    (k % n + 1 < n ∧ (k + 1) / n = k / n ∧ (k + 1) % n = k % n + 1) ∨
      (k % n + 1 = n ∧ (k + 1) / n = k / n + 1 ∧ (k + 1) % n = 0) := by
  have hk := Nat.mod_add_div k n
  have hlt := Nat.mod_lt k hn
  rcases Nat.lt_or_ge (k % n + 1) n with hin | hout
  · exact Or.inl ⟨hin, (Nat.div_mod_unique hn).mpr ⟨by omega, hin⟩⟩
  · have hsucc : n * (k / n + 1) = n * (k / n) + n := Nat.mul_succ _ _
    exact Or.inr ⟨by omega, (Nat.div_mod_unique hn).mpr ⟨by omega, hn⟩⟩

theorem zipIdx_map_range {α : Type} (f : Nat → α) (n : Nat) :
    ((List.range n).map f).zipIdx = (List.range n).map fun i => (f i, i) := by
  apply List.ext_getElem
  · simp
  · intro i _ _
    simp

/-- Rows handed out in bands of `k`, by the lengths of the slices that hold their cells,
are the rows in order. -/
theorem flatMap_bands {α : Type} {k w : Nat} (hk : 0 < k) (hw : 0 < w) (rows : Nat)
    (f : Nat → List α) :
    ((chunks (k * w) (List.replicate (rows * w) ())).zipIdx.flatMap fun e =>
      (List.range (e.1.length / w)).flatMap fun r => f (e.2 * k + r)) =
      (List.range rows).flatMap f := by
  have hlen : ∀ j, (((List.replicate (rows * w) ()).drop (j * (k * w))).take (k * w)).length / w =
      min k (rows - j * k) := by
    intro j
    rw [List.length_take, List.length_drop, List.length_replicate, ← Nat.mul_assoc,
      ← Nat.sub_mul, Nat.mul_min_mul_right, Nat.mul_div_cancel _ hw]
  have hpre : ∀ j, ((List.range j).flatMap fun b =>
      (List.range (min k (rows - b * k))).flatMap fun r => f (b * k + r)) =
        (List.range (min rows (j * k))).flatMap f := by
    intro j
    induction j with
    | zero => simp
    | succ j ih =>
      have hsplit : min rows ((j + 1) * k) = min rows (j * k) + min k (rows - j * k) := by
        rw [Nat.succ_mul]
        omega
      rw [List.range_succ, List.flatMap_append, ih, hsplit, List.range_add, List.flatMap_append,
        List.flatMap_singleton, List.flatMap_map]
      congr 1
      by_cases hle : j * k ≤ rows
      · rw [Nat.min_eq_right hle]
      · have hnone : min k (rows - j * k) = 0 := by omega
        rw [hnone]
        rfl
  have hcover : rows ≤ (rows * w + k * w - 1) / (k * w) * k := by
    have hpos : 0 < k * w := Nat.mul_pos hk hw
    have h := Nat.lt_div_mul_add (a := rows * w + k * w - 1) hpos
    rw [← Nat.mul_assoc] at h
    apply Nat.le_of_mul_le_mul_right _ hw
    omega
  rw [chunks, List.length_replicate, zipIdx_map_range, List.flatMap_map]
  simp only [hlen]
  rw [hpre, Nat.min_eq_left hcover]

theorem foldl_keeps {σ α β : Type} (g : σ → β) {f : σ → α → σ} (h : ∀ s a, g (f s a) = g s)
    (xs : List α) : ∀ s, g (xs.foldl f s) = g s := by
  induction xs with
  | nil => exact fun _ => rfl
  | cons a xs ih => exact fun s => (ih (f s a)).trans (h s a)

section
variable {α : Type} [LinearOrder α]

/-- A loop whose steps all succeed is a plain loop, seen through `g`. -/
theorem map_foldlM {σ τ α : Type} {g : σ → τ} {f : σ → α → Option σ} {k : τ → α → τ} (as : List α) :
    ∀ s, (∀ s, ∀ a ∈ as, (f s a).map g = some (k (g s) a)) →
      (as.foldlM f s).map g = some (as.foldl k (g s)) := by
  induction as with
  | nil => intro s _; rfl
  | cons a as ih =>
    intro s h
    obtain ⟨s', hs', hg⟩ := Option.map_eq_some_iff.mp (h s a List.mem_cons_self)
    rw [List.foldlM_cons, hs', Option.bind_eq_bind, Option.bind_some, List.foldl_cons, ← hg]
    exact ih s' fun s b hb => h s b (List.mem_cons_of_mem a hb)

/-- A running maximum is at least its start and everything it has seen. -/
theorem le_foldl_max (xs : List α) : ∀ m, m ≤ xs.foldl max m ∧ ∀ x ∈ xs, x ≤ xs.foldl max m := by
  induction xs with
  | nil => exact fun m => ⟨le_refl m, fun x hx => absurd hx List.not_mem_nil⟩
  | cons y xs ih =>
    intro m
    obtain ⟨hstart, hrest⟩ := ih (max m y)
    refine ⟨(le_max_left m y).trans hstart, fun x hx => ?_⟩
    rcases List.mem_cons.mp hx with rfl | hx
    · exact (le_max_right m x).trans hstart
    · exact hrest x hx

/-- A running maximum is its start or something it has seen. -/
theorem foldl_max_mem (xs : List α) : ∀ m, xs.foldl max m = m ∨ xs.foldl max m ∈ xs := by
  induction xs with
  | nil => exact fun m => Or.inl rfl
  | cons y xs ih =>
    intro m
    rw [List.foldl_cons]
    rcases ih (max m y) with h | h
    · rw [h]
      rcases le_total m y with hle | hle
      · rw [max_eq_right hle]
        exact Or.inr List.mem_cons_self
      · exact Or.inl (max_eq_left hle)
    · exact Or.inr (List.mem_cons_of_mem _ h)

end
