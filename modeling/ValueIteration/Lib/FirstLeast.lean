import Mathlib.Data.List.Induction
import ValueIteration.Lib.Argmin

/-!
# The first least element of a list

What `Iterator::min_by` returns: of the elements with the least key the first one. Only
the order of the keys matters, and below a cap the capped scan finds the same element.
-/

set_option autoImplicit false

namespace Argmin

variable {α β : Type}

/-- The first of the elements with the least key, as `Iterator::min_by` finds it. -/
def firstLeast [LT α] [DecidableLT α] (key : β → α) (xs : List β) : Option β :=
  xs.foldl (fun best x =>
    match best with
    | none => some x
    | some b => if key x < key b then some x else some b) none

theorem firstLeast_concat [LT α] [DecidableLT α] (key : β → α) (xs : List β) (x : β) :
    firstLeast key (xs ++ [x]) =
      match firstLeast key xs with
      | none => some x
      | some b => if key x < key b then some x else some b := by
  rw [firstLeast, List.foldl_append]
  rfl

/-- Only the order of the keys matters. -/
theorem firstLeast_congr {γ : Type} [LT α] [DecidableLT α] [LT γ] [DecidableLT γ] {key : β → α}
    {key' : β → γ} (h : ∀ a b, key a < key b ↔ key' a < key' b) (xs : List β) :
    firstLeast key xs = firstLeast key' xs := by
  simp only [firstLeast, h]

variable [LinearOrder α] {key : β → α}

/-- The result is an element with the least key, and there is none only in the empty list. -/
theorem firstLeast_spec (key : β → α) (xs : List β) :
    (firstLeast key xs = none ∧ xs = []) ∨
      ∃ a, firstLeast key xs = some a ∧ a ∈ xs ∧ ∀ b ∈ xs, key a ≤ key b := by
  induction xs using List.reverseRecOn with
  | nil => exact Or.inl ⟨rfl, rfl⟩
  | append_singleton xs x ih =>
    right
    rw [firstLeast_concat]
    rcases ih with ⟨hnone, rfl⟩ | ⟨a, ha, hmem, hle⟩
    · exact ⟨x, by rw [hnone], List.mem_append_right _ (List.mem_singleton_self x), by simp⟩
    · by_cases hlt : key x < key a
      · refine ⟨x, by simp [ha, hlt], by simp, ?_⟩
        intro b hb
        rcases List.mem_append.mp hb with hb | hb
        · exact hlt.le.trans (hle b hb)
        · rw [List.mem_singleton.mp hb]
      · refine ⟨a, by simp [ha, hlt], List.mem_append_left _ hmem, ?_⟩
        intro b hb
        rcases List.mem_append.mp hb with hb | hb
        · exact hle b hb
        · rw [List.mem_singleton.mp hb]
          exact not_lt.mp hlt

theorem scan_concat (cs : List α) (c : α) : ∀ (i : Nat) (acc : α × Option Nat),
    scan i (cs ++ [c]) acc = step (scan i cs acc) (i + cs.length) c := by
  induction cs with
  | nil => intro i acc; rfl
  | cons d cs ih =>
    intro i acc
    rw [List.cons_append, scan, scan, ih, List.length_cons]
    congr 1
    omega

/-- Below the cap, the capped scan and the first least element find the same index. -/
theorem argminBelow_eq_firstLeast {γ : Type} [LT γ] [DecidableLT γ] {bound : α} {f : Nat → α}
    {g : Nat → γ} (h : ∀ i j, g i < g j ↔ f i < f j) (n : Nat) :
    argminBelow bound ((List.range n).map f) =
      match firstLeast g (List.range n) with
      | none => (bound, none)
      | some i => if f i < bound then (f i, some i) else (bound, none) := by
  induction n with
  | zero => rfl
  | succ n ih =>
    rw [argminBelow] at ih
    rw [List.range_succ, List.map_append, List.map_singleton, argminBelow, scan_concat, ih,
      firstLeast_concat, List.length_map, List.length_range, Nat.zero_add]
    cases hbest : firstLeast g (List.range n) with
    | none => rfl
    | some i =>
      simp only [h, step]
      by_cases hi : f i < bound
      · by_cases hn : f n < f i
        · simp [hi, hn, hn.trans hi]
        · simp [hi, hn]
      · by_cases hn : f n < f i
        · simp [hi, hn]
        · have hnb : ¬ f n < bound := fun hlt => hn (hlt.trans_le (not_lt.mp hi))
          simp [hi, hn, hnb]

end Argmin
