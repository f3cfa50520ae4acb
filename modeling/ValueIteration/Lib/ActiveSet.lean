import Mathlib.Data.Set.Insert
import Mathlib.Data.List.Basic

/-!
# In-place evaluation driven by an active set

A state is evaluated one index at a time; each evaluation reports whether it moved
the index. Indices that are not settled have to stay in the work still to do, or
read an index that moved. `Covered.sweepGroups` carries this through a round in
which indices are evaluated in groups and a group is marked when one of its
members moved.
-/

set_option autoImplicit false

namespace ActiveSet

variable {σ ι κ : Type}

/-- Evaluate a list of indices in order and count those that moved. -/
def evalAll (eval : σ → ι → σ × Bool) : List ι → σ → σ × Nat
  | [], v => (v, 0)
  | s :: rest, v =>
    let r := eval v s
    let q := evalAll eval rest r.1
    (q.1, (if r.2 then 1 else 0) + q.2)

/-- Evaluate groups in order; return the number of moves and the keys of the groups
in which something moved. -/
def sweepGroups (eval : σ → ι → σ × Bool) : List (κ × List ι) → σ → σ × Nat × List κ
  | [], v => (v, 0, [])
  | g :: rest, v =>
    let r := evalAll eval g.2 v
    let q := sweepGroups eval rest r.1
    (q.1, r.2 + q.2.1, if 0 < r.2 then g.1 :: q.2.2 else q.2.2)

/-- What an evaluation keeps and what it may disturb. `ok` is an invariant of the
state, `legal` the indices that may be evaluated, `dom` those that must settle. -/
structure System (σ ι : Type) where
  eval : σ → ι → σ × Bool
  ok : σ → Prop
  legal : ι → Prop
  dom : ι → Prop
  reads : ι → ι → Prop
  settled : σ → ι → Prop
  ok_eval : ∀ v s, ok v → legal s → ok (eval v s).1
  settled_unmoved : ∀ v s, ok v → dom s → (eval v s).2 = false → settled (eval v s).1 s
  settled_self : ∀ v s, ok v → dom s → ¬ reads s s → settled (eval v s).1 s
  frame_unmoved : ∀ v s u, ok v → legal s → dom u → (eval v s).2 = false → settled v u →
    settled (eval v s).1 u
  frame : ∀ v s u, ok v → legal s → dom u → u ≠ s → ¬ reads u s → settled v u →
    settled (eval v s).1 u

/-- `u` reads a moved index, or is one. -/
def Owed (reads : ι → ι → Prop) (moved : Set ι) (u : ι) : Prop :=
  ∃ t ∈ moved, reads u t ∨ u = t

theorem Owed.mono {reads : ι → ι → Prop} {m m' : Set ι} (h : m ⊆ m') {u : ι}
    (hu : Owed reads m u) : Owed reads m' u := by
  obtain ⟨t, ht, hr⟩ := hu
  exact ⟨t, h ht, hr⟩

namespace System

variable {sys : System σ ι}

theorem ok_evalAll (ps : List ι) : ∀ {v : σ}, sys.ok v → (∀ s ∈ ps, sys.legal s) →
    sys.ok (evalAll sys.eval ps v).1 := by
  induction ps with
  | nil => intro v hv _; exact hv
  | cons s ps ih =>
    intro v hv hps
    exact ih (sys.ok_eval v s hv (hps s List.mem_cons_self))
      fun t ht => hps t (List.mem_cons_of_mem _ ht)

theorem ok_sweepGroups (gs : List (κ × List ι)) : ∀ {v : σ}, sys.ok v →
    (∀ g ∈ gs, ∀ s ∈ g.2, sys.legal s) → sys.ok (sweepGroups sys.eval gs v).1 := by
  induction gs with
  | nil => intro v hv _; exact hv
  | cons g gs ih =>
    intro v hv hgs
    exact ih (ok_evalAll g.2 hv (hgs g List.mem_cons_self))
      fun g' hg' => hgs g' (List.mem_cons_of_mem _ hg')

variable (sys)

/-- Every index is settled, still to be evaluated, or owed to a moved one. -/
def Covered (v : σ) (todo : List ι) (moved : Set ι) : Prop :=
  ∀ u, sys.dom u → sys.settled v u ∨ u ∈ todo ∨ Owed sys.reads moved u

variable {sys}

theorem Covered.mono {v : σ} {todo todo' : List ι} {m m' : Set ι} (h : sys.Covered v todo m)
    (ht : ∀ u ∈ todo, u ∈ todo') (hm : m ⊆ m') : sys.Covered v todo' m' := by
  intro u hu
  rcases h u hu with h | h | h
  · exact Or.inl h
  · exact Or.inr (Or.inl (ht u h))
  · exact Or.inr (Or.inr (h.mono hm))

theorem Covered.eval_unmoved {v : σ} {s : ι} {todo : List ι} {m : Set ι}
    (h : sys.Covered v (s :: todo) m) (hv : sys.ok v) (hs : sys.legal s)
    (hmove : (sys.eval v s).2 = false) : sys.Covered (sys.eval v s).1 todo m := by
  intro u hu
  rcases h u hu with hset | ht | ho
  · exact Or.inl (sys.frame_unmoved v s u hv hs hu hmove hset)
  · rcases List.mem_cons.mp ht with rfl | ht
    · exact Or.inl (sys.settled_unmoved v u hv hu hmove)
    · exact Or.inr (Or.inl ht)
  · exact Or.inr (Or.inr ho)

theorem Covered.eval_moved {v : σ} {s : ι} {todo : List ι} {m : Set ι}
    (h : sys.Covered v (s :: todo) m) (hv : sys.ok v) (hs : sys.legal s) :
    sys.Covered (sys.eval v s).1 todo (insert s m) := by
  intro u hu
  by_cases hread : sys.reads u s
  · exact Or.inr (Or.inr ⟨s, Set.mem_insert s m, Or.inl hread⟩)
  by_cases hus : u = s
  · subst hus
    exact Or.inl (sys.settled_self v u hv hu hread)
  rcases h u hu with hset | ht | ho
  · exact Or.inl (sys.frame v s u hv hs hu hus hread hset)
  · rcases List.mem_cons.mp ht with rfl | ht
    · exact absurd rfl hus
    · exact Or.inr (Or.inl ht)
  · exact Or.inr (Or.inr (ho.mono (Set.subset_insert s m)))

/-- A list of evaluations moves the covering to the members of the list, and
nowhere if none of them moved. -/
theorem Covered.evalAll (ps : List ι) : ∀ {v : σ} {todo : List ι} {m : Set ι},
    sys.Covered v (ps ++ todo) m → sys.ok v → (∀ s ∈ ps, sys.legal s) →
      sys.Covered (evalAll sys.eval ps v).1 todo
        (m ∪ {t | 0 < (evalAll sys.eval ps v).2 ∧ t ∈ ps}) := by
  induction ps with
  | nil =>
    intro v todo m h _ _
    exact h.mono (fun u hu => hu) Set.subset_union_left
  | cons s ps ih =>
    intro v todo m h hv hps
    have hs := hps s List.mem_cons_self
    have hrest : ∀ t ∈ ps, sys.legal t := fun t ht => hps t (List.mem_cons_of_mem _ ht)
    have hv' := sys.ok_eval v s hv hs
    by_cases hmove : (sys.eval v s).2 = true
    · have hpos : 0 < (ActiveSet.evalAll sys.eval (s :: ps) v).2 := by
        simp only [ActiveSet.evalAll, hmove, if_true]
        omega
      refine (ih (h.eval_moved hv hs) hv' hrest).mono (fun u hu => hu) ?_
      rintro t (ht | ht)
      · rcases ht with rfl | ht
        · exact Or.inr ⟨hpos, List.mem_cons_self⟩
        · exact Or.inl ht
      · exact Or.inr ⟨hpos, List.mem_cons_of_mem _ ht.2⟩
    · rw [Bool.not_eq_true] at hmove
      refine (ih (h.eval_unmoved hv hs hmove) hv' hrest).mono (fun u hu => hu) ?_
      rintro t (ht | ht)
      · exact Or.inl ht
      · refine Or.inr ⟨?_, List.mem_cons_of_mem _ ht.2⟩
        have := ht.1
        simp only [ActiveSet.evalAll]
        omega

/-- One round: what is left unsettled reads a member of a marked group. -/
theorem Covered.sweepGroups (gs : List (κ × List ι)) : ∀ {v : σ} {m : Set ι},
    sys.Covered v (gs.flatMap (·.2)) m → sys.ok v → (∀ g ∈ gs, ∀ s ∈ g.2, sys.legal s) →
      sys.Covered (sweepGroups sys.eval gs v).1 []
        (m ∪ {t | ∃ g ∈ gs, g.1 ∈ (sweepGroups sys.eval gs v).2.2 ∧ t ∈ g.2}) := by
  induction gs with
  | nil =>
    intro v m h _ _
    exact h.mono (fun u hu => hu) Set.subset_union_left
  | cons g gs ih =>
    intro v m h hv hgs
    have hg := hgs g List.mem_cons_self
    have hcov := Covered.evalAll g.2 (by simpa using h) hv hg
    refine (ih hcov (ok_evalAll g.2 hv hg)
      fun g' hg' => hgs g' (List.mem_cons_of_mem _ hg')).mono (fun u hu => hu) ?_
    rintro t ((ht | ⟨hpos, ht⟩) | ⟨g', hg', hk, ht⟩)
    · exact Or.inl ht
    · exact Or.inr ⟨g, List.mem_cons_self, by simp [ActiveSet.sweepGroups, hpos], ht⟩
    · refine Or.inr ⟨g', List.mem_cons_of_mem _ hg', ?_, ht⟩
      simp only [ActiveSet.sweepGroups]
      split
      · exact List.mem_cons_of_mem _ hk
      · exact hk

end System

end ActiveSet
