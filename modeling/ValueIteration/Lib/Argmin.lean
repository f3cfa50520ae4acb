import Mathlib.Data.List.Basic
import Mathlib.Order.Lattice

/-!
# First strict argmin below a bound

A scan that keeps the running minimum of a list of costs, starting from a bound,
and the index of the first cost that improved it. The index is `none` when no
cost lies strictly below the bound.
-/

namespace Argmin

set_option autoImplicit false

variable {α : Type} [LinearOrder α]

/-- One step of the scan: `c` replaces the running minimum only if strictly smaller. -/
def step (acc : α × Option Nat) (i : Nat) (c : α) : α × Option Nat :=
  if c < acc.1 then (c, some i) else acc

def scan : Nat → List α → α × Option Nat → α × Option Nat
  | _, [], acc => acc
  | i, c :: cs, acc => scan (i + 1) cs (step acc i c)

/-- Minimum of `cs` capped by `bound`, with the first index that attains it. -/
def argminBelow (bound : α) (cs : List α) : α × Option Nat :=
  scan 0 cs (bound, none)

@[simp] theorem scan_nil (i : Nat) (acc : α × Option Nat) : scan i [] acc = acc := rfl

@[simp] theorem scan_cons (i : Nat) (c : α) (cs : List α) (acc : α × Option Nat) :
    scan i (c :: cs) acc = scan (i + 1) cs (step acc i c) := rfl

theorem step_le (acc : α × Option Nat) (i : Nat) (c : α) : (step acc i c).1 ≤ acc.1 := by
  unfold step
  split
  · exact le_of_lt ‹_›
  · exact le_refl _

theorem step_le_cost (acc : α × Option Nat) (i : Nat) (c : α) : (step acc i c).1 ≤ c := by
  unfold step
  split
  · exact le_refl _
  · exact not_lt.mp ‹_›

theorem scan_le (cs : List α) : ∀ (i : Nat) (acc : α × Option Nat), (scan i cs acc).1 ≤ acc.1 := by
  induction cs with
  | nil => intro i acc; exact le_refl _
  | cons c cs ih => intro i acc; exact (ih _ _).trans (step_le acc i c)

theorem scan_le_mem (cs : List α) :
    ∀ (i : Nat) (acc : α × Option Nat), ∀ c ∈ cs, (scan i cs acc).1 ≤ c := by
  induction cs with
  | nil => intro i acc c hc; simp at hc
  | cons d cs ih =>
    intro i acc c hc
    rcases List.mem_cons.mp hc with rfl | hc
    · exact (scan_le cs _ _).trans (step_le_cost acc i c)
    · exact ih _ _ c hc

theorem argminBelow_le (bound : α) (cs : List α) : (argminBelow bound cs).1 ≤ bound :=
  scan_le cs 0 _

theorem argminBelow_le_mem {bound : α} {cs : List α} {c : α} (hc : c ∈ cs) :
    (argminBelow bound cs).1 ≤ c :=
  scan_le_mem cs 0 _ c hc

/-- The scan returns its accumulator or a cost of the list with its own index. -/
theorem scan_cases (cs : List α) : ∀ (i : Nat) (acc : α × Option Nat),
    scan i cs acc = acc ∨
      ∃ k c, cs[k]? = some c ∧ scan i cs acc = (c, some (i + k)) := by
  induction cs with
  | nil => intro i acc; exact Or.inl rfl
  | cons d cs ih =>
    intro i acc
    rcases ih (i + 1) (step acc i d) with h | ⟨k, c, hk, h⟩
    · by_cases hd : d < acc.1
      · refine Or.inr ⟨0, d, rfl, ?_⟩
        rw [scan_cons, h]
        simp [step, hd]
      · refine Or.inl ?_
        rw [scan_cons, h]
        simp [step, hd]
    · refine Or.inr ⟨k + 1, c, hk, ?_⟩
      rw [scan_cons, h]
      simp [Nat.add_assoc, Nat.add_comm 1 k]

theorem argminBelow_cases (bound : α) (cs : List α) :
    argminBelow bound cs = (bound, none) ∨
      ∃ k c, cs[k]? = some c ∧ argminBelow bound cs = (c, some k) := by
  rcases scan_cases cs 0 (bound, none) with h | ⟨k, c, hk, h⟩
  · exact Or.inl h
  · exact Or.inr ⟨k, c, hk, by simpa [argminBelow] using h⟩

/-- A scan that changed its accumulator went strictly below it. -/
theorem scan_eq_or_lt (cs : List α) : ∀ (i : Nat) (acc : α × Option Nat),
    scan i cs acc = acc ∨ (scan i cs acc).1 < acc.1 := by
  induction cs with
  | nil => intro i acc; exact Or.inl rfl
  | cons c cs ih =>
    intro i acc
    rw [scan_cons, step]
    split
    · next h => exact Or.inr ((scan_le cs _ _).trans_lt h)
    · exact ih _ _

/-- No action is chosen at the bound. -/
theorem argminBelow_snd {bound : α} {cs : List α} (h : (argminBelow bound cs).1 = bound) :
    (argminBelow bound cs).2 = none := by
  rcases scan_eq_or_lt cs 0 (bound, none) with heq | hlt
  · exact congrArg Prod.snd heq
  · exact absurd h hlt.ne

/-- The running minimum alone. -/
theorem scan_fst (cs : List α) : ∀ (i : Nat) (acc : α × Option Nat),
    (scan i cs acc).1 = cs.foldl (fun best c => if c < best then c else best) acc.1 := by
  induction cs with
  | nil => intro i acc; rfl
  | cons c cs ih =>
    intro i acc
    rw [scan_cons, ih, List.foldl_cons]
    congr 1
    unfold step
    split <;> rfl

/-- Any lower bound of the costs and of the cap is a lower bound of the result. -/
theorem le_argminBelow {bound : α} {cs : List α} {x : α} (hb : x ≤ bound)
    (hc : ∀ c ∈ cs, x ≤ c) : x ≤ (argminBelow bound cs).1 := by
  rcases argminBelow_cases bound cs with h | ⟨k, c, hk, h⟩
  · rw [h]; exact hb
  · rw [h]; exact hc c (List.mem_of_getElem? hk)

theorem argminBelow_fst_mem (bound : α) (cs : List α) :
    (argminBelow bound cs).1 = bound ∨ (argminBelow bound cs).1 ∈ cs := by
  rcases argminBelow_cases bound cs with h | ⟨k, c, hk, h⟩
  · exact Or.inl (by rw [h])
  · exact Or.inr (by rw [h]; exact List.mem_of_getElem? hk)

/-- The value is monotone in the costs, whatever the two lists' indices are. -/
theorem argminBelow_mono {bound : α} {cs ds : List α}
    (h : ∀ d ∈ ds, ∃ c ∈ cs, c ≤ d) : (argminBelow bound cs).1 ≤ (argminBelow bound ds).1 := by
  refine le_argminBelow (argminBelow_le bound cs) ?_
  intro d hd
  obtain ⟨c, hc, hcd⟩ := h d hd
  exact (argminBelow_le_mem hc).trans hcd

theorem argminBelow_map_mono {β : Type} {bound : α} {f g : β → α} (xs : List β)
    (h : ∀ x ∈ xs, f x ≤ g x) :
    (argminBelow bound (xs.map f)).1 ≤ (argminBelow bound (xs.map g)).1 := by
  refine argminBelow_mono ?_
  intro d hd
  obtain ⟨x, hx, rfl⟩ := List.mem_map.mp hd
  exact ⟨f x, List.mem_map_of_mem hx, h x hx⟩

theorem scan_eq_of_agree_below {β : Type} {cap : α} {f g : β → α} (xs : List β) :
    ∀ (i : Nat) (acc acc' : α × Option Nat),
      (∀ x ∈ xs, f x = g x ∨ cap ≤ f x ∧ cap ≤ g x) →
      (acc = acc' ∨ cap ≤ acc.1 ∧ cap ≤ acc'.1) →
      (scan i (xs.map f) acc = scan i (xs.map g) acc' ∨
        cap ≤ (scan i (xs.map f) acc).1 ∧ cap ≤ (scan i (xs.map g) acc').1) := by
  induction xs with
  | nil => intro i acc acc' _ hacc; exact hacc
  | cons x xs ih =>
    intro i acc acc' h hacc
    apply ih _ _ _ fun y hy => h y (List.mem_cons_of_mem _ hy)
    unfold step
    rcases h x List.mem_cons_self with heq | ⟨hf, hg⟩ <;> rcases hacc with rfl | ⟨ha, ha'⟩
    · rw [heq]
      exact Or.inl rfl
    · rw [heq]
      by_cases hlt : g x < cap
      · rw [if_pos (hlt.trans_le ha), if_pos (hlt.trans_le ha')]
        exact Or.inl rfl
      · refine Or.inr ⟨?_, ?_⟩ <;> split
        exacts [not_lt.mp hlt, ha, not_lt.mp hlt, ha']
    · by_cases hlt : acc.1 < cap
      · rw [if_neg (not_lt.mpr (hlt.le.trans hf)), if_neg (not_lt.mpr (hlt.le.trans hg))]
        exact Or.inl rfl
      · refine Or.inr ⟨?_, ?_⟩ <;> split
        exacts [hf, not_lt.mp hlt, hg, not_lt.mp hlt]
    · refine Or.inr ⟨?_, ?_⟩ <;> split
      exacts [hf, ha, hg, ha']

/-- Costs that agree below a cap have one minimum and one first argument below it. -/
theorem argminBelow_eq_of_agree_below {β : Type} {bound cap : α} {f g : β → α} {xs : List β}
    (h : ∀ x ∈ xs, f x = g x ∨ cap ≤ f x ∧ cap ≤ g x)
    (hlt : (argminBelow bound (xs.map f)).1 < cap) :
    argminBelow bound (xs.map f) = argminBelow bound (xs.map g) := by
  rcases scan_eq_of_agree_below xs 0 (bound, none) (bound, none) h (Or.inl rfl) with heq | ⟨hf, _⟩
  · exact heq
  · exact absurd hlt (not_lt.mpr hf)

end Argmin
