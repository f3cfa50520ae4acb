import Mathlib.Data.List.Nodup
import Mathlib.Order.BoundedOrder.Basic
import Mathlib.Order.Lattice
import Mathlib.Order.Monotone.Basic
import ValueIteration.Lib.Crew

/-!
# Relaxation on private copies

A worker copies states of a shared table, relaxes them in its copy and writes them back.
`F V s` is the value state `s` gets from the table `V`.
-/

set_option autoImplicit false
set_option linter.unusedSectionVars false

namespace Replica

variable {S W Δ : Type} [DecidableEq S]

/-- A table of values and the largest change made to it so far. -/
structure Sheet (S W Δ : Type) where
  copy : S → W
  delta : Δ

inductive Op (S : Type) where
  | fetch (s : S)
  | relax (s : S)
  | flush (s : S)

variable [Max Δ] (F : (S → W) → S → W) (G : W → W → Δ)

def relaxOne (r : Sheet S W Δ) (s : S) : Sheet S W Δ :=
  ⟨Function.update r.copy s (F r.copy s), max r.delta (G (r.copy s) (F r.copy s))⟩

/-- The states of a list relaxed in place, one after the other. -/
def relaxAll (l : List S) (r : Sheet S W Δ) : Sheet S W Δ := l.foldl (relaxOne F G) r

def exec : Op S → Sheet S W Δ × (S → W) → Sheet S W Δ × (S → W)
  | .fetch s, (r, m) => (⟨Function.update r.copy s (m s), r.delta⟩, m)
  | .relax s, (r, m) => (relaxOne F G r s, m)
  | .flush s, (r, m) => (r, Function.update m s (r.copy s))

@[simp] theorem relaxAll_nil (r : Sheet S W Δ) : relaxAll F G [] r = r := rfl

@[simp] theorem relaxAll_cons (s : S) (l : List S) (r : Sheet S W Δ) :
    relaxAll F G (s :: l) r = relaxAll F G l (relaxOne F G r s) := rfl

theorem relaxAll_append (l k : List S) (r : Sheet S W Δ) :
    relaxAll F G (l ++ k) r = relaxAll F G k (relaxAll F G l r) := List.foldl_append

variable {F G}

theorem relaxAll_copy_of_notMem {l : List S} {s : S} (hs : s ∉ l) (r : Sheet S W Δ) :
    (relaxAll F G l r).copy s = r.copy s := by
  induction l generalizing r with
  | nil => rfl
  | cons t l ih =>
    rw [List.mem_cons, not_or] at hs
    rw [relaxAll_cons, ih hs.2]
    exact Function.update_of_ne hs.1 _ _

/-- Where the update of each state of a list is known whatever the others hold, relaxing the
list sets them. -/
theorem relaxAll_sets {A : (S → W) → Prop} {T : S → W} {l : List S}
    (hset : ∀ f, A f → ∀ s ∈ l, F f s = T s ∧ A (Function.update f s (T s))) :
    ∀ {r : Sheet S W Δ}, A r.copy →
      A (relaxAll F G l r).copy ∧ ∀ s ∈ l, (relaxAll F G l r).copy s = T s := by
  induction l with
  | nil => exact fun h => ⟨h, fun s hs => absurd hs List.not_mem_nil⟩
  | cons s l ih =>
    intro r h
    obtain ⟨hval, hkeep⟩ := hset r.copy h s List.mem_cons_self
    have hone : (relaxOne F G r s).copy = Function.update r.copy s (T s) := by
      rw [← hval]
      rfl
    obtain ⟨hA, hrest⟩ := ih (fun f hf t ht => hset f hf t (List.mem_cons_of_mem s ht))
      (r := relaxOne F G r s) (hone ▸ hkeep)
    refine ⟨hA, ?_⟩
    intro t ht
    by_cases htl : t ∈ l
    · exact hrest t htl
    · rcases List.mem_cons.mp ht with rfl | hmem
      · rw [relaxAll_cons, relaxAll_copy_of_notMem htl, hone, Function.update_self]
      · exact absurd hmem htl

/-- Relaxing settled states changes nothing. -/
theorem relaxAll_settled {Δ : Type} [LinearOrder Δ] [OrderBot Δ] {G : W → W → Δ}
    (hG : ∀ a, G a a = ⊥) {l : List S} {r : Sheet S W Δ}
    (hfix : ∀ s ∈ l, F r.copy s = r.copy s) : relaxAll F G l r = r := by
  induction l with
  | nil => rfl
  | cons s l ih =>
    have hone : relaxOne F G r s = r := by
      unfold relaxOne
      rw [hfix s List.mem_cons_self, hG, Function.update_eq_self, max_eq_left bot_le]
    rw [relaxAll_cons, hone]
    exact ih fun t ht => hfix t (List.mem_cons_of_mem s ht)

/-- The largest change begins anew with each list. -/
theorem relaxAll_delta {Δ : Type} [LinearOrder Δ] [OrderBot Δ] {G : W → W → Δ} (l : List S)
    (f : S → W) (d : Δ) : relaxAll F G l ⟨f, d⟩ =
      ⟨(relaxAll F G l ⟨f, ⊥⟩).copy, max d (relaxAll F G l ⟨f, ⊥⟩).delta⟩ := by
  induction l generalizing f d with
  | nil => simp
  | cons s l ih =>
    simp only [relaxAll_cons, relaxOne]
    rw [ih _ (max d _), ih _ (max ⊥ _)]
    simp only [max_assoc, max_eq_right bot_le]

/-! ## Locality -/

/-- `F` at `s` looks only at the states of `L`. -/
def Reads (F : (S → W) → S → W) (L : S → Prop) (s : S) : Prop :=
  ∀ f g : S → W, (∀ t, L t → f t = g t) → F f s = F g s

/-- Two tables that agree on what is looked at are relaxed alike. -/
theorem relaxAll_congr {L : S → Prop} {l : List S} (hL : ∀ s ∈ l, L s ∧ Reads F L s) :
    ∀ {r u : Sheet S W Δ}, (∀ t, L t → r.copy t = u.copy t) → r.delta = u.delta →
      (∀ t, L t → (relaxAll F G l r).copy t = (relaxAll F G l u).copy t) ∧
        (relaxAll F G l r).delta = (relaxAll F G l u).delta := by
  induction l with
  | nil => intro r u h hd; exact ⟨h, hd⟩
  | cons s l ih =>
    intro r u h hd
    obtain ⟨hs, hread⟩ := hL s (by simp)
    have hF : F r.copy s = F u.copy s := hread _ _ h
    refine ih (fun t ht => hL t (by simp [ht])) ?_ ?_
    · intro t ht
      simp only [relaxOne, Function.update_apply, hF, h t ht]
    · simp only [relaxOne, hF, h s hs, hd]

/-! ## A worker alone -/

theorem alone_fetch (l : List S) (r : Sheet S W Δ) (m : S → W) :
    Crew.alone (exec F G) (l.map .fetch) (r, m) =
      (⟨fun s => if s ∈ l then m s else r.copy s, r.delta⟩, m) := by
  induction l generalizing r with
  | nil => simp
  | cons t l ih =>
    rw [List.map_cons, Crew.alone_cons, exec, ih]
    congr 2
    funext s
    by_cases hs : s ∈ l
    · simp [hs]
    · by_cases hst : s = t
      · subst hst; simp [hs]
      · simp [hs, hst]

theorem alone_relax (l : List S) (r : Sheet S W Δ) (m : S → W) :
    Crew.alone (exec F G) (l.map .relax) (r, m) = (relaxAll F G l r, m) := by
  induction l generalizing r with
  | nil => rfl
  | cons s l ih => rw [List.map_cons, Crew.alone_cons, exec, ih, relaxAll_cons]

theorem alone_flush (l : List S) (r : Sheet S W Δ) (m : S → W) :
    Crew.alone (exec F G) (l.map .flush) (r, m) =
      (r, fun s => if s ∈ l then r.copy s else m s) := by
  induction l generalizing m with
  | nil => simp
  | cons t l ih =>
    rw [List.map_cons, Crew.alone_cons, exec, ih]
    congr 1
    funext s
    by_cases hs : s ∈ l
    · simp [hs]
    · by_cases hst : s = t
      · subst hst; simp [hs]
      · simp [hs, hst]

/-! ## Rounds -/

/-- States to copy first, and states to relax then and to write back, in whatever order. -/
structure Round (S : Type) where
  fetched : List S
  relaxed : List S
  flushed : List S
  perm : flushed.Perm relaxed

def Round.ops (b : Round S) : List (Op S) :=
  b.fetched.map .fetch ++ (b.relaxed.map .relax ++ b.flushed.map .flush)

/-- The copies that agree with the memory when the rounds begin, and those fetched since,
are all that the relaxations of the rounds look at. -/
def Sighted (F : (S → W) → S → W) : (S → Prop) → List (Round S) → Prop
  | _, [] => True
  | L, b :: bs => ∃ L' : S → Prop, (∀ s, L' s → L s ∨ s ∈ b.fetched) ∧
      (∀ s ∈ b.relaxed, L' s ∧ Reads F L' s) ∧ Sighted F L' bs

/-- Relaxing in a copy that agrees with the memory wherever one looks and writing back is
relaxing in the memory; the copy goes on agreeing with it. -/
theorem alone_round {L L' : S → Prop} {b : Round S} (hfetch : ∀ s, L' s → L s ∨ s ∈ b.fetched)
    (hread : ∀ s ∈ b.relaxed, L' s ∧ Reads F L' s) {r : Sheet S W Δ} {m : S → W}
    (h : ∀ t, L t → r.copy t = m t) :
    ∃ r', Crew.alone (exec F G) b.ops (r, m) =
        (r', (relaxAll F G b.relaxed ⟨m, r.delta⟩).copy) ∧
      r'.delta = (relaxAll F G b.relaxed ⟨m, r.delta⟩).delta ∧
      ∀ t, L' t → r'.copy t = (relaxAll F G b.relaxed ⟨m, r.delta⟩).copy t := by
  have hsight : ∀ t, L' t → (if t ∈ b.fetched then m t else r.copy t) = m t := by
    intro t ht
    by_cases hb : t ∈ b.fetched
    · rw [if_pos hb]
    · rw [if_neg hb]
      exact h t ((hfetch t ht).resolve_right hb)
  have hcongr := relaxAll_congr (G := G) hread
    (r := ⟨fun t => if t ∈ b.fetched then m t else r.copy t, r.delta⟩)
    (u := ⟨m, r.delta⟩) hsight rfl
  refine ⟨_, ?_, hcongr.2, hcongr.1⟩
  rw [Round.ops, Crew.alone_append, Crew.alone_append, alone_fetch, alone_relax, alone_flush]
  congr 1
  funext s
  by_cases hs : s ∈ b.relaxed
  · rw [if_pos (b.perm.mem_iff.mpr hs)]
    exact hcongr.1 s (hread s hs).1
  · rw [if_neg fun hmem => hs (b.perm.mem_iff.mp hmem)]
    exact (relaxAll_copy_of_notMem hs ⟨m, r.delta⟩).symm

/-- Rounds that fetch all they look at may come after any others. -/
theorem Sighted.append {bs cs : List (Round S)} (hcs : ∀ L, Sighted F L cs) :
    ∀ {L : S → Prop}, Sighted F L bs → Sighted F L (bs ++ cs) := by
  induction bs with
  | nil => intro L _; exact hcs L
  | cons b bs ih =>
    intro L h
    obtain ⟨L', hfetch, hread, hrest⟩ := h
    exact ⟨L', hfetch, hread, ih hrest⟩

/-- A worker alone that always sees what it looks at relaxes the memory in place. -/
theorem alone_rounds {bs : List (Round S)} : ∀ {L : S → Prop} {r : Sheet S W Δ} {m : S → W},
    Sighted F L bs → (∀ t, L t → r.copy t = m t) →
      ∃ r', Crew.alone (exec F G) (bs.flatMap Round.ops) (r, m) =
          (r', (relaxAll F G (bs.flatMap Round.relaxed) ⟨m, r.delta⟩).copy) ∧
        r'.delta = (relaxAll F G (bs.flatMap Round.relaxed) ⟨m, r.delta⟩).delta := by
  induction bs with
  | nil => intro L r m _ _; exact ⟨r, rfl, rfl⟩
  | cons b bs ih =>
    intro L r m hsight h
    obtain ⟨L', hfetch, hread, hrest⟩ := hsight
    obtain ⟨r₁, hrun, hdelta, hcopy⟩ := alone_round (G := G) hfetch hread h
    obtain ⟨r₂, hrun₂, hdelta₂⟩ := ih (r := r₁) hrest hcopy
    refine ⟨r₂, ?_, ?_⟩
    · rw [List.flatMap_cons, Crew.alone_append, hrun, hrun₂, hdelta, List.flatMap_cons,
        relaxAll_append]
    · rw [hdelta₂, hdelta, List.flatMap_cons, relaxAll_append]

end Replica
