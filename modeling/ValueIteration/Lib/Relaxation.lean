import Mathlib.Algebra.Order.Monoid.Defs
import Mathlib.Data.List.Basic
import Mathlib.Logic.Function.Basic
import Mathlib.Order.Hom.Basic
import Mathlib.Tactic.Common

/-!
# Relaxing along edges in place

A field gives every site a value. Relaxing an edge lowers the value of its target to what
the edge makes of the value at its source. A pass relaxes a list of edges one after the
other, each on the field the earlier ones left. What a pass carries from one site to
another bounds its result from above; what every edge preserves bounds it from below.
-/

set_option autoImplicit false

namespace Relaxation

/-- The value at `dst` may become `step` of the value at `src`. -/
structure Edge (ι V : Type) [Preorder V] where
  dst : ι
  src : ι
  step : V →o V

section
variable {ι V : Type} [DecidableEq ι] [LinearOrder V]

def relax (f : ι → V) (e : Edge ι V) : ι → V :=
  if e.step (f e.src) < f e.dst then Function.update f e.dst (e.step (f e.src)) else f

def pass (es : List (Edge ι V)) (f : ι → V) : ι → V := es.foldl relax f

variable {es es' : List (Edge ι V)} {i j k : ι}

theorem relax_apply (f : ι → V) (e : Edge ι V) (i : ι) :
    relax f e i = if i = e.dst then min (f i) (e.step (f e.src)) else f i := by
  unfold relax
  by_cases hi : i = e.dst
  · rw [if_pos hi, hi]
    split
    · next hlt => rw [Function.update_self, min_eq_right hlt.le]
    · next hge => rw [min_eq_left (not_lt.mp hge)]
  · rw [if_neg hi]
    split
    · rw [Function.update_of_ne hi]
    · rfl

theorem relax_le (f : ι → V) (e : Edge ι V) : relax f e ≤ f := by
  intro i
  rw [relax_apply]
  split
  · exact min_le_left _ _
  · exact le_refl _

@[simp] theorem pass_nil (f : ι → V) : pass [] f = f := rfl

@[simp] theorem pass_cons (e : Edge ι V) (es : List (Edge ι V)) (f : ι → V) :
    pass (e :: es) f = pass es (relax f e) := rfl

@[simp] theorem pass_append (es es' : List (Edge ι V)) (f : ι → V) :
    pass (es ++ es') f = pass es' (pass es f) := List.foldl_append

theorem pass_le (es : List (Edge ι V)) : ∀ f : ι → V, pass es f ≤ f := by
  induction es with
  | nil => exact fun f => le_refl f
  | cons e es ih => exact fun f => (ih (relax f e)).trans (relax_le f e)

/-- A site that is no target keeps its value. -/
theorem pass_of_no_dst (h : ∀ e ∈ es, e.dst ≠ i) : ∀ f : ι → V, pass es f i = f i := by
  induction es with
  | nil => exact fun f => rfl
  | cons e es ih =>
    intro f
    rw [pass_cons, ih (fun e' he' => h e' (List.mem_cons_of_mem _ he')), relax_apply,
      if_neg (h e List.mem_cons_self).symm]

/-- Invariant rule: what holds of every value and survives every edge holds after a pass. -/
theorem pass_invariant {P : ι → V → Prop} (hedge : ∀ e ∈ es, ∀ v, P e.src v → P e.dst (e.step v)) :
    ∀ {f : ι → V}, (∀ i, P i (f i)) → ∀ i, P i (pass es f i) := by
  induction es with
  | nil => exact fun h => h
  | cons e es ih =>
    intro f hf
    apply ih (fun e' he' => hedge e' (List.mem_cons_of_mem _ he'))
    intro i
    rw [relax_apply]
    split
    · next hi =>
      subst hi
      rcases min_choice (f e.dst) (e.step (f e.src)) with hmin | hmin
      · rw [hmin]
        exact hf e.dst
      · rw [hmin]
        exact hedge e List.mem_cons_self _ (hf e.src)
    · exact hf i

/-- A field on which every edge is settled is left alone. -/
theorem pass_eq_self {f : ι → V} (h : ∀ e ∈ es, f e.dst ≤ e.step (f e.src)) : pass es f = f := by
  induction es with
  | nil => rfl
  | cons e es ih =>
    have hone : relax f e = f := by
      unfold relax
      rw [if_neg (not_lt.mpr (h e List.mem_cons_self))]
    rw [pass_cons, hone]
    exact ih fun e' he' => h e' (List.mem_cons_of_mem _ he')

/-- After the pass the value at `j` is at most `φ` of what the value at `i` was before. -/
def Carries (es : List (Edge ι V)) (i j : ι) (φ : V →o V) : Prop :=
  ∀ f : ι → V, pass es f j ≤ φ (f i)

namespace Carries

variable {φ ψ : V →o V}

theorem refl (es : List (Edge ι V)) (i : ι) : Carries es i i OrderHom.id :=
  fun f => pass_le es f i

theorem edge (e : Edge ι V) : Carries [e] e.src e.dst e.step := by
  intro f
  rw [pass_cons, pass_nil, relax_apply, if_pos rfl]
  exact min_le_right _ _

theorem append (h : Carries es i j φ) (h' : Carries es' j k ψ) :
    Carries (es ++ es') i k (ψ.comp φ) := by
  intro f
  rw [pass_append]
  exact (h' (pass es f)).trans (ψ.monotone (h f))

theorem mono (h : Carries es i j φ) (hle : ∀ v, φ v ≤ ψ v) : Carries es i j ψ :=
  fun f => (h f).trans (hle _)

theorem appendRight (h : Carries es i j φ) (es' : List (Edge ι V)) : Carries (es ++ es') i j φ :=
  h.append (refl es' j)

theorem appendLeft (h : Carries es i j φ) (es' : List (Edge ι V)) : Carries (es' ++ es) i j φ :=
  (refl es' i).append h

/-- What one section carries the whole pass carries. -/
theorem flatMap {α : Type} {cs : List α} (part : α → List (Edge ι V)) {c : α} (hc : c ∈ cs)
    (h : Carries (part c) i j φ) : Carries (cs.flatMap part) i j φ := by
  obtain ⟨before, after, rfl⟩ := List.append_of_mem hc
  rw [List.flatMap_append, List.flatMap_cons]
  exact (h.appendRight _).appendLeft _

end Carries

/-- If no later edge changes the source of an earlier one, every edge is settled. -/
theorem pass_settled (hne : ∀ e ∈ es, e.dst ≠ e.src)
    (hlate : es.Pairwise fun e e' => e'.dst ≠ e.src) :
    ∀ (f : ι → V), ∀ e ∈ es, pass es f e.dst ≤ e.step (pass es f e.src) := by
  induction es with
  | nil => exact fun f e he => absurd he List.not_mem_nil
  | cons e₀ es ih =>
    obtain ⟨hfirst, hrest⟩ := List.pairwise_cons.mp hlate
    intro f e he
    rw [pass_cons]
    rcases List.mem_cons.mp he with rfl | he
    · have hsrc : pass es (relax f e) e.src = f e.src := by
        rw [pass_of_no_dst hfirst, relax_apply, if_neg (hne e List.mem_cons_self).symm]
      rw [hsrc]
      apply (pass_le es _ _).trans
      rw [relax_apply, if_pos rfl]
      exact min_le_right _ _
    · exact ih (fun e' he' => hne e' (List.mem_cons_of_mem _ he')) hrest _ e he

/-- Edges that lead upwards, sorted by the rank of their targets. -/
theorem pass_settled_of_rank {α : Type} [Preorder α] (rank : ι → α)
    (hup : ∀ e ∈ es, rank e.src < rank e.dst)
    (hsort : es.Pairwise fun e e' => rank e.dst ≤ rank e'.dst) (f : ι → V) :
    ∀ e ∈ es, pass es f e.dst ≤ e.step (pass es f e.src) := by
  apply pass_settled
  · intro e he heq
    have hlt := hup e he
    rw [heq] at hlt
    exact lt_irrefl _ hlt
  · apply hsort.imp_of_mem
    intro e e' he _ hle heq
    have hlt := (hup e he).trans_le hle
    rw [heq] at hlt
    exact lt_irrefl _ hlt

/-- The edges into one site amount to a running minimum. -/
theorem pass_into (φ : V →o V) {near : List ι} (hi : i ∉ near) (f : ι → V) :
    pass (near.map fun j => ⟨i, j, φ⟩) f =
      Function.update f i (near.foldl (fun v j => min v (φ (f j))) (f i)) := by
  induction near generalizing f with
  | nil => exact (Function.update_eq_self i f).symm
  | cons j near ih =>
    obtain ⟨hij, hi⟩ := not_or.mp (mt List.mem_cons.mpr hi)
    have hone : relax f ⟨i, j, φ⟩ = Function.update f i (min (f i) (φ (f j))) := by
      funext k
      rw [relax_apply, Function.update_apply]
      split
      · next hk => rw [hk]
      · rfl
    rw [List.map_cons, pass_cons, hone, ih hi, Function.update_self, Function.update_idem,
      List.foldl_cons]
    refine congrArg (Function.update f i) (List.foldl_ext _ _ _ ?_)
    intro v k hk
    rw [Function.update_of_ne (ne_of_mem_of_not_mem hk hi)]

end

section
variable {ι V : Type} {on : ι → Prop} {addr : ι → Nat} {d : List V} {f : ι → V} {i : ι}

/-- A list holds a field on some sites, each at its address. -/
def Stores (on : ι → Prop) (addr : ι → Nat) (d : List V) (f : ι → V) : Prop :=
  ∀ i, on i → d[addr i]? = some (f i)

theorem Stores.getD (h : Stores on addr d f) (hi : on i) (v : V) : d.getD (addr i) v = f i := by
  rw [List.getD_eq_getElem?_getD, h i hi, Option.getD_some]

theorem Stores.update [DecidableEq ι] (h : Stores on addr d f)
    (hinj : ∀ i j, on i → on j → addr i = addr j → i = j) (hi : on i) (v : V) :
    Stores on addr (d.set (addr i) v) (Function.update f i v) := by
  intro j hj
  by_cases heq : j = i
  · subst heq
    have hlt := (List.getElem?_eq_some_iff.mp (h j hj)).1
    rw [Function.update_self, List.getElem?_set_self hlt]
  · have hne : addr i ≠ addr j := fun haddr => heq (hinj i j hi hj haddr).symm
    rw [Function.update_of_ne heq, List.getElem?_set_ne hne]
    exact h j hj

end

section
variable {ι V : Type} [DecidableEq ι] [LinearOrder V] [AddCommMonoid V] [IsOrderedAddMonoid V]

/-- The step of an edge with a cost. -/
def shift (c : V) : V →o V := ⟨fun v => v + c, fun _ _ h => add_le_add_left h c⟩

@[simp] theorem shift_apply (c v : V) : shift c v = v + c := rfl

@[simp] theorem shift_comp (c c' : V) : (shift c').comp (shift c) = shift (c + c') :=
  OrderHom.ext _ _ (funext fun v => add_assoc v c c')

/-- From every cell of a line to the next one, in order. -/
def forward (l : V) (n : Nat) (cell : Nat → ι) : List (Edge ι V) :=
  (List.range n).map fun k => ⟨cell (k + 1), cell k, shift l⟩

/-- Back along the line. -/
def backward (l : V) (n : Nat) (cell : Nat → ι) : List (Edge ι V) :=
  (List.range n).reverse.map fun k => ⟨cell k, cell (k + 1), shift l⟩

variable {l : V} {cell : Nat → ι}

theorem carries_forward {n : Nat} : ∀ {s m : Nat}, s + m ≤ n →
    Carries (forward l n cell) (cell s) (cell (s + m)) (shift (m • l)) := by
  induction n with
  | zero =>
    intro s m h
    obtain rfl : m = 0 := by omega
    exact (Carries.refl _ _).mono fun v => by simp
  | succ n ih =>
    intro s m h
    rw [forward, List.range_succ, List.map_append, ← forward]
    by_cases hle : s + m ≤ n
    · exact (ih hle).appendRight _
    · cases m with
      | zero => exact (Carries.refl _ _).mono fun v => by simp
      | succ m =>
        have hend : s + m = n := by omega
        have hlast : Carries [⟨cell (n + 1), cell n, shift l⟩] (cell n) (cell (n + 1)) (shift l) :=
          Carries.edge _
        rw [← Nat.add_assoc, hend]
        have hfirst : Carries (forward l n cell) (cell s) (cell n) (shift (m • l)) := by
          have h := ih (le_of_eq hend)
          rwa [hend] at h
        have hboth := hfirst.append hlast
        rwa [shift_comp, ← succ_nsmul] at hboth

theorem carries_backward {n : Nat} : ∀ {s m : Nat}, s + m ≤ n →
    Carries (backward l n cell) (cell (s + m)) (cell s) (shift (m • l)) := by
  induction n with
  | zero =>
    intro s m h
    obtain rfl : m = 0 := by omega
    exact (Carries.refl _ _).mono fun v => by simp
  | succ n ih =>
    intro s m h
    rw [backward, List.range_succ, List.reverse_append, List.map_append, ← backward]
    by_cases hle : s + m ≤ n
    · exact (ih hle).appendLeft _
    · cases m with
      | zero => exact (Carries.refl _ _).mono fun v => by simp
      | succ m =>
        have hend : s + m = n := by omega
        have hfirst : Carries [⟨cell n, cell (n + 1), shift l⟩] (cell (n + 1)) (cell n) (shift l) :=
          Carries.edge _
        rw [← Nat.add_assoc, hend]
        have hrest : Carries (backward l n cell) (cell n) (cell s) (shift (m • l)) := by
          have h := ih (le_of_eq hend)
          rwa [hend] at h
        have hboth := hfirst.append hrest
        rwa [shift_comp, ← succ_nsmul'] at hboth

/-- There and back: every cell of the line reaches every other one. -/
theorem carries_sweep {n s t : Nat} (hs : s ≤ n) (ht : t ≤ n) :
    Carries (forward l n cell ++ backward l n cell) (cell s) (cell t)
      (shift ((t - s + (s - t)) • l)) := by
  rcases le_total s t with hst | hts
  · obtain ⟨m, rfl⟩ := Nat.exists_eq_add_of_le hst
    have hm : s + m - s + (s - (s + m)) = m := by omega
    rw [hm]
    exact (carries_forward ht).appendRight _
  · obtain ⟨m, rfl⟩ := Nat.exists_eq_add_of_le hts
    have hm : t - (t + m) + (t + m - t) = m := by omega
    rw [hm]
    exact (carries_backward hs).appendLeft _

end

end Relaxation
