import ValueIteration.Lib.ReplicaCrew

/-!
# Programs that work on a private copy

A program of loads, stores and private steps follows a list of fetches, relaxations and
flushes when it loads what is fetched and stores what is flushed, whatever it is given by
the loads. Then every schedule of such programs is one of the abstract workers.
-/

set_option autoImplicit false
set_option linter.unusedSectionVars false

namespace Replica

variable {ι A W Δ C M : Type} [DecidableEq A] [Max Δ]

/-- The program `p`, begun in state `c`, follows `q`, begun with the sheet `r`, at the
addresses of `ok`, and ends in `Q`. -/
inductive Follows (ok : A → Prop) (F : (A → W) → A → W) (G : W → W → Δ)
    (Q : C → Sheet A W Δ → Prop) :
    List (Instr A W C) → List (Op A) → C → Sheet A W Δ → Prop where
  | done {c r} : Q c r → Follows ok F G Q [] [] c r
  | step {f p q c r} (l : List A) : Follows ok F G Q p q (f c) (relaxAll F G l r) →
      Follows ok F G Q (.step f :: p) (l.map .relax ++ q) c r
  | load {a f p q c r} : ok a →
      (∀ w, Follows ok F G Q p q (f w c) ⟨Function.update r.copy a w, r.delta⟩) →
      Follows ok F G Q (.load a f :: p) (.fetch a :: q) c r
  | store {a f p q c r} : ok a → f c = r.copy a → Follows ok F G Q p q c r →
      Follows ok F G Q (.store a f :: p) (.flush a :: q) c r

variable {ok : A → Prop} {F : (A → W) → A → W} {G : W → W → Δ}
  {Q R : C → Sheet A W Δ → Prop}

namespace Follows

theorem append {p p' : List (Instr A W C)} {q q' : List (Op A)} {c : C} {r : Sheet A W Δ}
    (h : Follows ok F G Q p q c r)
    (hnext : ∀ c r, Q c r → Follows ok F G R p' q' c r) :
    Follows ok F G R (p ++ p') (q ++ q') c r := by
  induction h with
  | done hQ => exact hnext _ _ hQ
  | step l _ ih =>
    rw [List.append_assoc]
    exact .step l ih
  | load ha _ ih => exact .load ha ih
  | store ha hf _ ih => exact .store ha hf ih

theorem mono {p : List (Instr A W C)} {q : List (Op A)} {c : C} {r : Sheet A W Δ}
    (h : Follows ok F G Q p q c r) (hQ : ∀ c r, Q c r → R c r) :
    Follows ok F G R p q c r := by
  have : Follows ok F G R (p ++ []) (q ++ []) c r := h.append fun c r hc => .done (hQ c r hc)
  rwa [List.append_nil, List.append_nil] at this

/-- A loop keeps an invariant that each of its rounds passes on. -/
theorem range {n : Nat} {f : Nat → List (Instr A W C)} {g : Nat → List (Op A)}
    {I : Nat → C → Sheet A W Δ → Prop}
    (hbody : ∀ i < n, ∀ c r, I i c r → Follows ok F G (I (i + 1)) (f i) (g i) c r)
    {c : C} {r : Sheet A W Δ} (h : I 0 c r) :
    Follows ok F G (I n) ((List.range n).flatMap f) ((List.range n).flatMap g) c r := by
  induction n with
  | zero => exact .done h
  | succ n ih =>
    have hlast := hbody n (by omega)
    have hinit := ih fun i hi => hbody i (by omega)
    rw [List.range_succ, List.flatMap_append, List.flatMap_append]
    refine hinit.append fun c r hc => ?_
    simpa using hlast c r hc

/-- A loop over a list, its invariant indexed by what remains. -/
theorem list {α : Type} {f : α → List (Instr A W C)} {g : α → List (Op A)}
    {I : C → Sheet A W Δ → Prop} {l : List α}
    (hbody : ∀ a ∈ l, ∀ c r, I c r → Follows ok F G I (f a) (g a) c r)
    {c : C} {r : Sheet A W Δ} (h : I c r) :
    Follows ok F G I (l.flatMap f) (l.flatMap g) c r := by
  induction l generalizing c r with
  | nil => exact .done h
  | cons a l ih =>
    rw [List.flatMap_cons, List.flatMap_cons]
    refine (hbody a (by simp) c r h).append fun c r hc => ?_
    exact ih (fun b hb => hbody b (by simp [hb])) hc

/-- A loop whose body is one instruction. -/
theorem map {α : Type} {f : α → Instr A W C} {g : α → Op A}
    {I : C → Sheet A W Δ → Prop} {l : List α}
    (hbody : ∀ a ∈ l, ∀ c r, I c r → Follows ok F G I [f a] [g a] c r)
    {c : C} {r : Sheet A W Δ} (h : I c r) :
    Follows ok F G I (l.map f) (l.map g) c r := by
  rw [List.map_eq_flatMap, List.map_eq_flatMap]
  exact list hbody h

/-- A private step that relaxes one state. -/
theorem relaxed {f : C → C} {s : A} {c : C} {r : Sheet A W Δ} (h : Q (f c) (relaxOne F G r s)) :
    Follows ok F G Q [.step f] [.relax s] c r := .step [s] (.done h)

theorem stored {a : A} {f : C → W} {c : C} {r : Sheet A W Δ} (ha : ok a) (hf : f c = r.copy a)
    (h : Q c r) : Follows ok F G Q [.store a f] [.flush a] c r := .store ha hf (.done h)

theorem skip {f : C → C} {p : List (Instr A W C)} {q : List (Op A)} {c : C} {r : Sheet A W Δ}
    (h : Follows ok F G Q p q (f c) r) : Follows ok F G Q (.step f :: p) q c r :=
  .step (q := q) [] h

/-- Private steps alone follow nothing. -/
theorem steps {α : Type} {f : α → C → C} {l : List α} {c : C} {r : Sheet A W Δ}
    (h : Q (l.foldl (fun c a => f a c) c) r) :
    Follows ok F G Q (l.map fun a => .step (f a)) [] c r := by
  induction l generalizing c with
  | nil => exact .done h
  | cons a l ih => exact skip (ih h)

theorem nil_inv {q : List (Op A)} {c : C} {r : Sheet A W Δ}
    (h : Follows ok F G Q [] q c r) : q = [] ∧ Q c r := by
  cases h with
  | done hQ => exact ⟨rfl, hQ⟩

theorem store_inv {a : A} {f : C → W} {p : List (Instr A W C)} {q : List (Op A)} {c : C}
    {r : Sheet A W Δ} (h : Follows ok F G Q (.store a f :: p) q c r) :
    ∃ q', q = .flush a :: q' ∧ ok a ∧ f c = r.copy a := by
  cases h with
  | store ha hf _ => exact ⟨_, rfl, ha, hf⟩

end Follows

/-! ## Runs -/

section Runs

variable [DecidableEq ι] {port : Port M A W} {mok : M → Prop}

/-- A memory and the table it holds. -/
structure Holds (port : Port M A W) (mok : M → Prop) (ok : A → Prop) (m : M) (t : A → W) :
    Prop where
  mok : mok m
  get : ∀ a, ok a → port.get m a = t a

theorem Holds.set (law : port.Lawful mok ok) {m : M} {t : A → W} (h : Holds port mok ok m t)
    {a : A} (ha : ok a) (w : W) :
    Holds port mok ok (port.set m a w) (Function.update t a w) := by
  refine ⟨law.keeps h.mok ha, ?_⟩
  intro b hb
  rw [law.get_set h.mok ha hb, Function.update_apply, h.get b hb]

/-- Alone, the program leaves the memory as the list it follows leaves the table. -/
theorem Follows.alone (law : port.Lawful mok ok) {p : List (Instr A W C)} {q : List (Op A)}
    {c : C} {r : Sheet A W Δ} (h : Follows ok F G Q p q c r) :
    ∀ {m : M} {t : A → W}, Holds port mok ok m t →
      Q (Crew.alone (Instr.exec port) p (c, m)).1 (Crew.alone (exec F G) q (r, t)).1 ∧
        Holds port mok ok (Crew.alone (Instr.exec port) p (c, m)).2
          (Crew.alone (exec F G) q (r, t)).2 := by
  induction h with
  | done hQ => intro m t hm; exact ⟨hQ, hm⟩
  | @step f p q c r l _ ih =>
    intro m t hm
    rw [Crew.alone_append, alone_relax]
    exact ih hm
  | @load a f p q c r ha _ ih =>
    intro m t hm
    have := ih (t a) hm
    rw [Crew.alone_cons, Crew.alone_cons]
    simp only [Instr.exec, exec, hm.get a ha]
    exact this
  | @store a f p q c r ha hf _ ih =>
    intro m t hm
    rw [Crew.alone_cons, Crew.alone_cons]
    simp only [Instr.exec, exec, hf]
    exact ih (hm.set law ha _)

/-- A crew of programs and the abstract crew they follow. -/
structure Tracks (port : Port M A W) (mok : M → Prop) (ok : A → Prop)
    (F : (A → W) → A → W) (G : W → W → Δ) (Q : ι → C → Sheet A W Δ → Prop)
    (σ : Crew ι (Instr A W C) C M) (τ : Crew ι (Op A) (Sheet A W Δ) (A → W)) : Prop where
  mem : Holds port mok ok σ.mem τ.mem
  follows : ∀ i, Follows ok F G (Q i) (σ.rest i) (τ.rest i) (σ.state i) (τ.state i)

variable {P : ι → C → Sheet A W Δ → Prop}

theorem run_relax (i : ι) (l : List A) (q : List (Op A)) :
    ∀ τ : Crew ι (Op A) (Sheet A W Δ) (A → W), τ.rest i = l.map .relax ++ q →
      Crew.run (exec F G) (List.replicate l.length i) τ =
        ⟨τ.mem, Function.update τ.state i (relaxAll F G l (τ.state i)),
          Function.update τ.rest i q⟩ := by
  induction l with
  | nil =>
    intro τ hrest
    obtain ⟨m, st, rs⟩ := τ
    simp only [List.map_nil, List.nil_append] at hrest
    simp [← hrest]
  | cons s l ih =>
    intro τ hrest
    rw [List.length_cons, List.replicate_succ, Crew.run_cons]
    have htick : Crew.tick (exec F G) τ i =
        ⟨τ.mem, Function.update τ.state i (relaxOne F G (τ.state i) s),
          Function.update τ.rest i (l.map .relax ++ q)⟩ := Crew.tick_of_cons hrest
    rw [htick, ih _ (Function.update_self _ _ _)]
    simp only [Function.update_self, Function.update_idem, relaxAll_cons]

/-- One turn of the programs is a few turns of the abstract workers. -/
theorem Tracks.tick (law : port.Lawful mok ok) {σ : Crew ι (Instr A W C) C M}
    {τ : Crew ι (Op A) (Sheet A W Δ) (A → W)} (h : Tracks port mok ok F G P σ τ) (i : ι) :
    ∃ sched, Tracks port mok ok F G P (Crew.tick (Instr.exec port) σ i)
      (Crew.run (exec F G) sched τ) := by
  have hkeep : ∀ {c : C} {r : Sheet A W Δ} {p : List (Instr A W C)} {q : List (Op A)},
      Follows ok F G (P i) p q c r → ∀ j, Follows ok F G (P j)
        (Function.update σ.rest i p j) (Function.update τ.rest i q j)
        (Function.update σ.state i c j) (Function.update τ.state i r j) := by
    intro c r p q hf j
    by_cases hj : j = i
    · subst hj
      simp only [Function.update_self]
      exact hf
    · simp only [Function.update_of_ne hj]
      exact h.follows j
  have hi := h.follows i
  generalize hp : σ.rest i = p at hi
  generalize hq : τ.rest i = q at hi
  generalize hc : σ.state i = c at hi
  generalize hr : τ.state i = r at hi
  cases hi with
  | done _ => exact ⟨[], by rw [Crew.tick_of_nil hp]; exact h⟩
  | step l hf =>
    refine ⟨List.replicate l.length i, ?_⟩
    rw [Crew.tick_of_cons hp, run_relax i l _ τ hq]
    refine ⟨h.mem, hkeep ?_⟩
    rw [hr]
    simp only [Instr.exec, hc]
    exact hf
  | @load a _ _ _ _ _ ha hf =>
    refine ⟨[i], ?_⟩
    rw [Crew.run_cons, Crew.run_nil, Crew.tick_of_cons hp, Crew.tick_of_cons hq]
    refine ⟨h.mem, hkeep ?_⟩
    simp only [Instr.exec, exec, hc, hr, h.mem.get a ha]
    exact hf _
  | @store a _ _ _ _ _ ha heq hf =>
    refine ⟨[i], ?_⟩
    rw [Crew.run_cons, Crew.run_nil, Crew.tick_of_cons hp, Crew.tick_of_cons hq]
    refine ⟨?_, hkeep ?_⟩
    · simp only [Instr.exec, exec, hc, hr, heq]
      exact h.mem.set law ha _
    · simp only [Instr.exec, exec, hc, hr]
      exact hf

/-- Every schedule of the programs is one of the abstract workers. -/
theorem Tracks.run (law : port.Lawful mok ok) (sched : List ι) :
    ∀ {σ : Crew ι (Instr A W C) C M} {τ : Crew ι (Op A) (Sheet A W Δ) (A → W)},
      Tracks port mok ok F G P σ τ → ∃ sched', Tracks port mok ok F G P
        (Crew.run (Instr.exec port) sched σ) (Crew.run (exec F G) sched' τ) := by
  induction sched with
  | nil => intro σ τ h; exact ⟨[], h⟩
  | cons i sched ih =>
    intro σ τ h
    obtain ⟨s₁, h₁⟩ := h.tick law i
    obtain ⟨s₂, h₂⟩ := ih h₁
    refine ⟨s₁ ++ s₂, ?_⟩
    rw [Crew.run_cons, Crew.run_append]
    exact h₂

/-- When the programs are done so are the abstract workers, and each has ended well. -/
theorem Tracks.finished {σ : Crew ι (Instr A W C) C M}
    {τ : Crew ι (Op A) (Sheet A W Δ) (A → W)} (h : Tracks port mok ok F G P σ τ)
    (hfin : σ.Finished) : τ.Finished ∧ ∀ i, P i (σ.state i) (τ.state i) := by
  have hi : ∀ i, τ.rest i = [] ∧ P i (σ.state i) (τ.state i) := by
    intro i
    have hf := h.follows i
    rw [hfin i] at hf
    exact hf.nil_inv
  exact ⟨fun i => (hi i).1, fun i => (hi i).2⟩

end Runs

end Replica
