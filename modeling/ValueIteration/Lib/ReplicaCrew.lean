import ValueIteration.Lib.Replica

/-!
# Workers with private copies of one table

What holds of the shared table under every schedule: bounds that `F` respects, a table
that stands still when nothing was changed, and, when each state has one owner, a table
that only falls.
-/

set_option autoImplicit false
set_option linter.unusedSectionVars false

namespace Replica

variable {ι S W Δ : Type} [DecidableEq ι] [DecidableEq S]
variable {F : (S → W) → S → W} {G : W → W → Δ}

/-- The states a list of instructions relaxes. -/
def relaxedBy (ops : List (Op S)) : List S :=
  ops.filterMap fun op => match op with
    | .relax s => some s
    | _ => none

@[simp] theorem relaxedBy_nil : relaxedBy ([] : List (Op S)) = [] := rfl

@[simp] theorem relaxedBy_fetch (s : S) (ops : List (Op S)) :
    relaxedBy (.fetch s :: ops) = relaxedBy ops := rfl

@[simp] theorem relaxedBy_relax (s : S) (ops : List (Op S)) :
    relaxedBy (.relax s :: ops) = s :: relaxedBy ops := rfl

@[simp] theorem relaxedBy_flush (s : S) (ops : List (Op S)) :
    relaxedBy (.flush s :: ops) = relaxedBy ops := rfl

@[simp] theorem relaxedBy_append (p q : List (Op S)) :
    relaxedBy (p ++ q) = relaxedBy p ++ relaxedBy q := List.filterMap_append

theorem relaxedBy_ops (b : Round S) : relaxedBy b.ops = b.relaxed := by
  have hfetch : ∀ l : List S, relaxedBy (l.map .fetch) = [] := by
    intro l
    induction l with
    | nil => rfl
    | cons s l ih => exact ih
  have hflush : ∀ l : List S, relaxedBy (l.map .flush) = [] := by
    intro l
    induction l with
    | nil => rfl
    | cons s l ih => exact ih
  have hrelax : ∀ l : List S, relaxedBy (l.map .relax) = l := by
    intro l
    induction l with
    | nil => rfl
    | cons s l ih => rw [List.map_cons, relaxedBy_relax, ih]
  rw [Round.ops, relaxedBy_append, relaxedBy_append, hfetch, hrelax, hflush]
  simp

theorem relaxedBy_flatMap_ops (bs : List (Round S)) :
    relaxedBy (bs.flatMap Round.ops) = bs.flatMap Round.relaxed := by
  induction bs with
  | nil => rfl
  | cons b bs ih =>
    rw [List.flatMap_cons, relaxedBy_append, relaxedBy_ops, ih, List.flatMap_cons]

/-! ## Bounds -/

section Bounds

variable [Max Δ]

/-- Every value about, in the table and in the copies, satisfies `P`. -/
structure Within (P : S → W → Prop) (σ : Crew ι (Op S) (Sheet S W Δ) (S → W)) : Prop where
  mem : ∀ s, P s (σ.mem s)
  copy : ∀ i s, P s ((σ.state i).copy s)

theorem relaxAll_within {P : S → W → Prop}
    (hF : ∀ V : S → W, (∀ s, P s (V s)) → ∀ s, P s (F V s)) (l : List S) :
    ∀ {r : Sheet S W Δ}, (∀ s, P s (r.copy s)) → ∀ s, P s ((relaxAll F G l r).copy s) := by
  induction l with
  | nil => intro r h; exact h
  | cons s l ih =>
    intro r h
    apply ih
    intro t
    by_cases ht : t = s
    · subst ht
      simp only [relaxOne, Function.update_self]
      exact hF _ h t
    · simp only [relaxOne, Function.update_of_ne ht]
      exact h t

theorem Within.tick {P : S → W → Prop} (hF : ∀ V : S → W, (∀ s, P s (V s)) → ∀ s, P s (F V s))
    {σ : Crew ι (Op S) (Sheet S W Δ) (S → W)} {i : ι} (h : Within P σ) :
    Within P (Crew.tick (exec F G) σ i) := by
  cases hrest : σ.rest i with
  | nil => rw [Crew.tick_of_nil hrest]; exact h
  | cons op ops =>
    rw [Crew.tick_of_cons hrest]
    have hstate : ∀ r : Sheet S W Δ, (∀ s, P s (r.copy s)) →
        ∀ j s, P s ((Function.update σ.state i r j).copy s) := by
      intro r hr j s
      by_cases hj : j = i
      · subst hj
        rw [Function.update_self]
        exact hr s
      · rw [Function.update_of_ne hj]
        exact h.copy j s
    have hupdate : ∀ (f : S → W) (s : S) (w : W), (∀ t, P t (f t)) → P s w →
        ∀ t, P t (Function.update f s w t) := by
      intro f s w hf hw t
      by_cases ht : t = s
      · subst ht
        rwa [Function.update_self]
      · rw [Function.update_of_ne ht]
        exact hf t
    cases op with
    | fetch s => exact ⟨h.mem, hstate _ (hupdate _ _ _ (h.copy i) (h.mem s))⟩
    | relax s => exact ⟨h.mem, hstate _ (hupdate _ _ _ (h.copy i) (hF _ (h.copy i) s))⟩
    | flush s => exact ⟨hupdate _ _ _ h.mem (h.copy i s), hstate _ (h.copy i)⟩

theorem Within.run {P : S → W → Prop} (hF : ∀ V : S → W, (∀ s, P s (V s)) → ∀ s, P s (F V s))
    (sched : List ι) {σ : Crew ι (Op S) (Sheet S W Δ) (S → W)} (h : Within P σ) :
    Within P (Crew.run (exec F G) sched σ) := by
  apply Crew.run_induction _ sched σ h
  intro σ i h
  exact h.tick hF

end Bounds

/-! ## Standing still -/

section Still

variable [LinearOrder Δ] [OrderBot Δ]

theorem delta_le_tick (σ : Crew ι (Op S) (Sheet S W Δ) (S → W)) (i j : ι) :
    (σ.state j).delta ≤ ((Crew.tick (exec F G) σ i).state j).delta := by
  cases hrest : σ.rest i with
  | nil => rw [Crew.tick_of_nil hrest]
  | cons op ops =>
    rw [Crew.tick_of_cons hrest]
    by_cases hj : j = i
    · subst hj
      simp only [Function.update_self]
      cases op with
      | fetch s => exact le_refl _
      | relax s => exact le_max_left _ _
      | flush s => exact le_refl _
    · simp only [Function.update_of_ne hj, le_refl]

theorem delta_le_run (sched : List ι) (σ : Crew ι (Op S) (Sheet S W Δ) (S → W)) (j : ι) :
    (σ.state j).delta ≤ ((Crew.run (exec F G) sched σ).state j).delta := by
  induction sched generalizing σ with
  | nil => exact le_refl _
  | cons i sched ih => exact (delta_le_tick σ i j).trans (ih _)

/-- States relaxed in place without a change were settled. -/
theorem relaxAll_still (hG : ∀ a b, G a b = ⊥ → b = a) (l : List S) :
    ∀ {r : Sheet S W Δ}, (relaxAll F G l r).delta = ⊥ →
      (relaxAll F G l r).copy = r.copy ∧ ∀ s ∈ l, F r.copy s = r.copy s := by
  induction l with
  | nil => intro r _; exact ⟨rfl, by simp⟩
  | cons s l ih =>
    intro r hdelta
    have hsplit := relaxAll_delta (F := F) (G := G) l (relaxOne F G r s).copy
      (relaxOne F G r s).delta
    rw [relaxAll_cons] at hdelta ⊢
    have hone : (relaxOne F G r s).delta ≤ ⊥ := by
      rw [← hdelta, show relaxOne F G r s = ⟨(relaxOne F G r s).copy, (relaxOne F G r s).delta⟩
        from rfl, hsplit]
      exact le_max_left _ _
    have hfix : F r.copy s = r.copy s :=
      hG _ _ (le_bot_iff.mp ((le_max_right _ _).trans hone))
    have hcopy : (relaxOne F G r s).copy = r.copy := by
      simp only [relaxOne, hfix, Function.update_eq_self]
    obtain ⟨hsame, hrest⟩ := ih hdelta
    rw [hcopy] at hsame hrest
    refine ⟨hsame, ?_⟩
    intro t ht
    rw [List.mem_cons] at ht
    cases ht with
    | inl ht => rw [ht]; exact hfix
    | inr ht => exact hrest t ht

/-- Table and copies are all `V`, and what each worker has relaxed already is settled. -/
structure Still (F : (S → W) → S → W) (V : S → W) (prog : ι → List (Op S))
    (σ : Crew ι (Op S) (Sheet S W Δ) (S → W)) : Prop where
  mem : σ.mem = V
  copy : ∀ i, (σ.state i).copy = V
  settled : ∀ i, ∃ ops, prog i = ops ++ σ.rest i ∧ ∀ s ∈ relaxedBy ops, F V s = V s

theorem Still.tick (hG : ∀ a b, G a b = ⊥ → b = a) {V : S → W} {prog : ι → List (Op S)}
    {σ : Crew ι (Op S) (Sheet S W Δ) (S → W)} {i : ι} (h : Still F V prog σ)
    (hdelta : ((Crew.tick (exec F G) σ i).state i).delta = ⊥) :
    Still F V prog (Crew.tick (exec F G) σ i) := by
  cases hrest : σ.rest i with
  | nil => rw [Crew.tick_of_nil hrest]; exact h
  | cons op ops =>
    rw [Crew.tick_of_cons hrest] at hdelta ⊢
    simp only [Function.update_self] at hdelta
    have hstate : ∀ r : Sheet S W Δ, r.copy = V →
        ∀ j, (Function.update σ.state i r j).copy = V := by
      intro r hr j
      by_cases hj : j = i
      · subst hj; rwa [Function.update_self]
      · rw [Function.update_of_ne hj]; exact h.copy j
    have hrun : (∀ s ∈ relaxedBy [op], F V s = V s) → ∀ j, ∃ ps,
        prog j = ps ++ Function.update σ.rest i ops j ∧ ∀ s ∈ relaxedBy ps, F V s = V s := by
      intro hop j
      obtain ⟨ps, hprog, hps⟩ := h.settled j
      by_cases hj : j = i
      · subst hj
        refine ⟨ps ++ [op], ?_, ?_⟩
        · rw [Function.update_self, hprog, hrest, List.append_assoc, List.singleton_append]
        · intro s hs
          rw [relaxedBy_append, List.mem_append] at hs
          cases hs with
          | inl hs => exact hps s hs
          | inr hs => exact hop s hs
      · exact ⟨ps, by rw [Function.update_of_ne hj]; exact hprog, hps⟩
    cases op with
    | fetch s =>
      refine ⟨h.mem, hstate _ ?_, hrun (by simp)⟩
      simp only [exec, h.copy i, h.mem, Function.update_eq_self]
    | flush s =>
      refine ⟨?_, hstate _ (h.copy i), hrun (by simp)⟩
      simp only [exec, h.copy i, h.mem, Function.update_eq_self]
    | relax s =>
      have hfix : F V s = V s := by
        apply hG
        have hle : G (V s) (F V s) ≤ ⊥ := by
          rw [← hdelta]
          simp only [exec, relaxOne, h.copy i]
          exact le_max_right _ _
        exact le_bot_iff.mp hle
      refine ⟨h.mem, hstate _ ?_, hrun ?_⟩
      · simp only [exec, relaxOne, h.copy i, hfix, Function.update_eq_self]
      · intro t ht
        rw [relaxedBy_relax, relaxedBy_nil, List.mem_singleton] at ht
        rw [ht]
        exact hfix

/-- A run that ends without a change has left the table as it was. -/
theorem Still.run (hG : ∀ a b, G a b = ⊥ → b = a) {V : S → W} {prog : ι → List (Op S)}
    (sched : List ι) : ∀ {σ : Crew ι (Op S) (Sheet S W Δ) (S → W)}, Still F V prog σ →
      (∀ i, ((Crew.run (exec F G) sched σ).state i).delta = ⊥) →
      Still F V prog (Crew.run (exec F G) sched σ) := by
  induction sched with
  | nil => intro σ h _; exact h
  | cons i sched ih =>
    intro σ h hdelta
    refine ih (h.tick hG ?_) hdelta
    have hle := delta_le_run (F := F) (G := G) sched (Crew.tick (exec F G) σ i) i
    rw [show (Crew.run (exec F G) sched (Crew.tick (exec F G) σ i)).state i =
      (Crew.run (exec F G) (i :: sched) σ).state i from rfl, hdelta i] at hle
    exact le_bot_iff.mp hle

/-- Everything relaxed in a run without a change is settled. -/
theorem Still.settled_of_finished {V : S → W} {prog : ι → List (Op S)}
    {σ : Crew ι (Op S) (Sheet S W Δ) (S → W)} (h : Still F V prog σ) (hfin : σ.Finished)
    {i : ι} {s : S} (hs : s ∈ relaxedBy (prog i)) : F V s = V s := by
  obtain ⟨ops, hprog, hops⟩ := h.settled i
  rw [hfin i, List.append_nil] at hprog
  exact hops s (hprog ▸ hs)

/-- Nothing is left to change. -/
structure Idle (F : (S → W) → S → W) (V : S → W)
    (σ : Crew ι (Op S) (Sheet S W Δ) (S → W)) : Prop where
  mem : σ.mem = V
  copy : ∀ i, (σ.state i).copy = V
  delta : ∀ i, (σ.state i).delta = ⊥
  settled : ∀ i, ∀ s ∈ relaxedBy (σ.rest i), F V s = V s

theorem Idle.tick (hG : ∀ a, G a a = ⊥) {V : S → W} {σ : Crew ι (Op S) (Sheet S W Δ) (S → W)}
    {i : ι} (h : Idle F V σ) : Idle F V (Crew.tick (exec F G) σ i) := by
  cases hrest : σ.rest i with
  | nil => rw [Crew.tick_of_nil hrest]; exact h
  | cons op ops =>
    rw [Crew.tick_of_cons hrest]
    have hstate : exec F G op (σ.state i, σ.mem) = (σ.state i, σ.mem) := by
      cases op with
      | fetch s =>
        simp only [exec, h.copy i, h.mem, Function.update_eq_self]
        rw [← h.copy i]
      | flush s => simp only [exec, h.copy i, h.mem, Function.update_eq_self]
      | relax s =>
        have hfix := h.settled i s (by rw [hrest]; simp)
        simp only [exec, relaxOne, h.copy i, hfix, Function.update_eq_self, hG]
        rw [max_eq_left bot_le, ← h.copy i]
    rw [hstate, Function.update_eq_self]
    refine ⟨h.mem, h.copy, h.delta, ?_⟩
    intro j s hs
    apply h.settled j s
    by_cases hj : j = i
    · subst hj
      simp only [Function.update_self] at hs
      rw [hrest]
      cases op with
      | fetch t => exact hs
      | flush t => exact hs
      | relax t => exact List.mem_cons_of_mem _ hs
    · simpa only [Function.update_of_ne hj] using hs

/-- A run on a settled table changes nothing and reports no change. -/
theorem Idle.run (hG : ∀ a, G a a = ⊥) {V : S → W} (sched : List ι)
    {σ : Crew ι (Op S) (Sheet S W Δ) (S → W)} (h : Idle F V σ) :
    Idle F V (Crew.run (exec F G) sched σ) := by
  apply Crew.run_induction _ sched σ h
  intro σ i h
  exact h.tick hG

end Still

/-! ## Falling -/

section Falling

/-- A worker relaxes its own states, each once, and writes each back before it copies it
again; `held` are the states relaxed and not yet written back. -/
def Tidy (own : S → Prop) : (S → Prop) → List (Op S) → Prop
  | held, [] => ∀ s, ¬ held s
  | held, .fetch s :: ops => ¬ held s ∧ Tidy own held ops
  | held, .relax s :: ops => own s ∧ ¬ held s ∧ Tidy own (fun t => held t ∨ t = s) ops
  | held, .flush s :: ops =>
      held s ∧ s ∉ relaxedBy ops ∧ Tidy own (fun t => held t ∧ t ≠ s) ops

theorem Tidy.own_of_mem {own : S → Prop} {ops : List (Op S)} : ∀ {held : S → Prop},
    Tidy own held ops → ∀ {s}, s ∈ relaxedBy ops → own s := by
  induction ops with
  | nil => intro held _ s hs; cases hs
  | cons op ops ih =>
    intro held h s hs
    cases op with
    | fetch t => exact ih h.2 hs
    | flush t => exact ih h.2.2 hs
    | relax t =>
      rw [relaxedBy_relax, List.mem_cons] at hs
      cases hs with
      | inl hs => rw [hs]; exact h.1
      | inr hs => exact ih h.2.2 hs

theorem Tidy.congr {own held held' : S → Prop} {ops : List (Op S)} (h : Tidy own held ops)
    (heq : ∀ s, held s ↔ held' s) : Tidy own held' ops := by
  have : held = held' := funext fun s => propext (heq s)
  rwa [← this]

theorem tidy_fetch {own held : S → Prop} {l : List S} {ops : List (Op S)}
    (hl : ∀ s ∈ l, ¬ held s) (h : Tidy own held ops) :
    Tidy own held (l.map .fetch ++ ops) := by
  induction l with
  | nil => exact h
  | cons s l ih => exact ⟨hl s (by simp), ih fun t ht => hl t (by simp [ht])⟩

theorem tidy_flush {own : S → Prop} {l : List S} {ops : List (Op S)}
    (hl : ∀ s ∈ l, s ∉ relaxedBy ops) (hnd : l.Nodup) (h : Tidy own (fun _ => False) ops) :
    Tidy own (fun s => s ∈ l) (l.map .flush ++ ops) := by
  induction l with
  | nil => exact h.congr (by simp)
  | cons s l ih =>
    rw [List.nodup_cons] at hnd
    have hflush : ∀ k : List S, relaxedBy (k.map .flush ++ ops) = relaxedBy ops := by
      intro k
      induction k with
      | nil => rfl
      | cons t k ih => exact ih
    refine ⟨by simp, ?_, ?_⟩
    · change s ∉ relaxedBy (l.map .flush ++ ops)
      rw [hflush]
      exact hl s (by simp)
    · refine (ih (fun t ht => hl t (by simp [ht])) hnd.2).congr ?_
      intro t
      simp only [List.mem_cons]
      constructor
      · intro ht
        refine ⟨Or.inr ht, ?_⟩
        intro heq
        rw [heq] at ht
        exact hnd.1 ht
      · rintro ⟨ht | ht, hne⟩
        · exact absurd ht hne
        · exact ht

theorem tidy_relax {own held : S → Prop} {l : List S} {ops : List (Op S)}
    (hl : ∀ s ∈ l, own s ∧ ¬ held s) (hnd : l.Nodup)
    (h : Tidy own (fun s => held s ∨ s ∈ l) ops) : Tidy own held (l.map .relax ++ ops) := by
  induction l generalizing held with
  | nil => exact h.congr (by simp)
  | cons s l ih =>
    rw [List.nodup_cons] at hnd
    refine ⟨(hl s (by simp)).1, (hl s (by simp)).2, ih ?_ hnd.2 ?_⟩
    · intro t ht
      refine ⟨(hl t (by simp [ht])).1, ?_⟩
      rintro (hheld | heq)
      · exact (hl t (by simp [ht])).2 hheld
      · rw [heq] at ht
        exact hnd.1 ht
    · refine h.congr ?_
      intro t
      simp only [List.mem_cons]
      exact or_assoc.symm

/-- Rounds that relax each of the worker's own states at most once are tidy. -/
theorem tidy_rounds {own : S → Prop} {bs : List (Round S)}
    (hown : ∀ s ∈ bs.flatMap Round.relaxed, own s) (hnd : (bs.flatMap Round.relaxed).Nodup) :
    Tidy own (fun _ => False) (bs.flatMap Round.ops) := by
  induction bs with
  | nil => intro s h; exact h
  | cons b bs ih =>
    rw [List.flatMap_cons] at hown hnd ⊢
    obtain ⟨hb, hbs, hdisj⟩ := List.nodup_append.mp hnd
    rw [Round.ops, List.append_assoc, List.append_assoc]
    apply tidy_fetch (by simp)
    apply tidy_relax _ hb
    · refine (tidy_flush ?_ (b.perm.nodup_iff.mpr hb) (ih ?_ hbs)).congr ?_
      · intro s hs hmem
        rw [relaxedBy_flatMap_ops] at hmem
        exact hdisj s (b.perm.mem_iff.mp hs) s hmem rfl
      · intro s hs
        exact hown s (List.mem_append.mpr (Or.inr hs))
      · intro s
        rw [false_or]
        exact b.perm.mem_iff
    · intro s hs
      exact ⟨hown s (List.mem_append.mpr (Or.inl hs)), not_false⟩

variable [Preorder W] [Max Δ]

/-- The table as it will be once all that is held has been written back is `E`; it lies
between `F E` and the table `V` the run began with. -/
structure Falling (F : (S → W) → S → W) (V : S → W) (own : ι → S → Prop) (E : S → W)
    (held : ι → S → Prop) (σ : Crew ι (Op S) (Sheet S W Δ) (S → W)) : Prop where
  tidy : ∀ i, Tidy (own i) (held i) (σ.rest i)
  owned : ∀ {i s}, held i s → own i s
  idle : ∀ {s}, (∀ i, ¬ held i s) → σ.mem s = E s
  busy : ∀ {i s}, held i s → (σ.state i).copy s = E s
  le_mem : ∀ s, E s ≤ σ.mem s
  mem_le : ∀ s, σ.mem s ≤ V s
  le_copy : ∀ i s, E s ≤ (σ.state i).copy s
  copy_le : ∀ i s, (σ.state i).copy s ≤ V s
  relaxed_le : ∀ s, F E s ≤ E s
  waits : ∀ {i s}, held i s ∨ s ∈ relaxedBy (σ.rest i) → σ.mem s = V s

section Step

variable {V E : S → W} {own held : ι → S → Prop} {σ : Crew ι (Op S) (Sheet S W Δ) (S → W)}

theorem Falling.fetch (h : Falling F V own E held σ) {i : ι} {s : S} {ops : List (Op S)}
    (hrest : σ.rest i = .fetch s :: ops) :
    Falling F V own E held (Crew.tick (exec F G) σ i) := by
  have htidy := h.tidy i
  rw [hrest] at htidy
  rw [Crew.tick_of_cons hrest]
  have hcopy : ∀ {P : ι → S → W → Prop}, (∀ j t, P j t ((σ.state j).copy t)) →
      P i s (σ.mem s) → ∀ j t, P j t ((Function.update σ.state i
        ⟨Function.update (σ.state i).copy s (σ.mem s), (σ.state i).delta⟩ j).copy t) := by
    intro P hP hs j t
    by_cases hj : j = i
    · subst hj
      simp only [Function.update_self]
      by_cases ht : t = s
      · subst ht; simpa only [Function.update_self] using hs
      · simp only [Function.update_of_ne ht]; exact hP j t
    · simp only [Function.update_of_ne hj]; exact hP j t
  refine ⟨?_, h.owned, h.idle, ?_, h.le_mem, h.mem_le, ?_, ?_, h.relaxed_le, ?_⟩
  · intro j
    by_cases hj : j = i
    · subst hj; simp only [Function.update_self]; exact htidy.2
    · simp only [Function.update_of_ne hj]; exact h.tidy j
  · intro j t
    exact hcopy (P := fun j t w => held j t → w = E t) (fun j t => h.busy)
      (fun hs => absurd hs htidy.1) j t
  · exact hcopy (P := fun _ t w => E t ≤ w) h.le_copy (h.le_mem s)
  · exact hcopy (P := fun _ t w => w ≤ V t) h.copy_le (h.mem_le s)
  · intro j t hj
    apply h.waits (i := j)
    by_cases hji : j = i
    · subst hji
      simp only [Function.update_self] at hj
      rw [hrest]
      exact hj
    · simp only [Function.update_of_ne hji] at hj
      exact hj

theorem Falling.relax (hF : Monotone F) (hV : ∀ s, F V s ≤ V s)
    (hown : ∀ i j s, own i s → own j s → i = j) (h : Falling F V own E held σ) {i : ι} {s : S}
    {ops : List (Op S)} (hrest : σ.rest i = .relax s :: ops) :
    Falling F V own (Function.update E s (F (σ.state i).copy s))
      (Function.update held i fun t => held i t ∨ t = s) (Crew.tick (exec F G) σ i) := by
  have htidy := h.tidy i
  rw [hrest] at htidy
  obtain ⟨hs, hheld, htidy⟩ := htidy
  have hnot : ∀ j, ¬ held j s := by
    intro j hj
    have hji : j = i := hown _ _ _ (h.owned hj) hs
    rw [hji] at hj
    exact hheld hj
  have hmem : σ.mem s = V s := h.waits (i := i) (Or.inr (by rw [hrest]; simp))
  have hE : E s = V s := by rw [← h.idle hnot, hmem]
  have hnew : F (σ.state i).copy s ≤ V s := (hF (h.copy_le i) s).trans (hV s)
  have hfall : ∀ t, Function.update E s (F (σ.state i).copy s) t ≤ E t := by
    intro t
    by_cases ht : t = s
    · subst ht; simp only [Function.update_self, hE]; exact hnew
    · rw [Function.update_of_ne ht]
  rw [Crew.tick_of_cons hrest]
  have hother : ∀ {j t}, held j t → t ≠ s := by
    intro j t hj ht
    rw [ht] at hj
    exact hnot j hj
  refine ⟨?_, ?_, ?_, ?_, ?_, h.mem_le, ?_, ?_, ?_, ?_⟩
  · intro j
    by_cases hj : j = i
    · subst hj; simp only [Function.update_self, Function.update_self]; exact htidy
    · simp only [Function.update_of_ne hj]; exact h.tidy j
  · intro j t hj
    by_cases hji : j = i
    · subst hji
      rw [Function.update_self] at hj
      cases hj with
      | inl hj => exact h.owned hj
      | inr hj => rw [hj]; exact hs
    · rw [Function.update_of_ne hji] at hj
      exact h.owned hj
  · intro t ht
    have hts : t ≠ s := by
      intro hts
      have := ht i
      rw [Function.update_self] at this
      exact this (Or.inr hts)
    rw [Function.update_of_ne hts]
    apply h.idle
    intro j hj
    apply ht j
    by_cases hji : j = i
    · subst hji; simp only [Function.update_self]; exact Or.inl hj
    · simp only [Function.update_of_ne hji]; exact hj
  · intro j t hj
    by_cases hji : j = i
    · subst hji
      simp only [Function.update_self] at hj ⊢
      by_cases hts : t = s
      · subst hts; simp only [exec, relaxOne, Function.update_self]
      · simp only [exec, relaxOne, Function.update_of_ne hts]
        exact h.busy (hj.resolve_right hts)
    · simp only [Function.update_of_ne hji] at hj ⊢
      rw [Function.update_of_ne (hother hj)]
      exact h.busy hj
  · intro t
    exact (hfall t).trans (h.le_mem t)
  · intro j t
    by_cases hji : j = i
    · subst hji
      simp only [Function.update_self, exec, relaxOne]
      by_cases hts : t = s
      · subst hts; rw [Function.update_self, Function.update_self]
      · simp only [Function.update_of_ne hts]; exact h.le_copy j t
    · simp only [Function.update_of_ne hji]
      exact (hfall t).trans (h.le_copy j t)
  · intro j t
    by_cases hji : j = i
    · subst hji
      simp only [Function.update_self, exec, relaxOne]
      by_cases hts : t = s
      · subst hts; simp only [Function.update_self]; exact hnew
      · simp only [Function.update_of_ne hts]; exact h.copy_le j t
    · simp only [Function.update_of_ne hji]
      exact h.copy_le j t
  · intro t
    by_cases hts : t = s
    · subst hts
      rw [Function.update_self]
      exact hF (fun u => (hfall u).trans (h.le_copy i u)) t
    · rw [Function.update_of_ne hts]
      exact (hF hfall t).trans (h.relaxed_le t)
  · intro j t hj
    by_cases hji : j = i
    · subst hji
      simp only [Function.update_self] at hj
      rcases hj with (hj | hj) | hj
      · exact h.waits (Or.inl hj)
      · rw [hj]; exact hmem
      · apply h.waits (i := j) (Or.inr _)
        rw [hrest, relaxedBy_relax]
        exact List.mem_cons_of_mem _ hj
    · simp only [Function.update_of_ne hji] at hj
      exact h.waits hj

theorem Falling.flush (hown : ∀ i j s, own i s → own j s → i = j)
    (h : Falling F V own E held σ) {i : ι} {s : S} {ops : List (Op S)}
    (hrest : σ.rest i = .flush s :: ops) :
    Falling F V own E (Function.update held i fun t => held i t ∧ t ≠ s)
      (Crew.tick (exec F G) σ i) := by
  have htidy := h.tidy i
  rw [hrest] at htidy
  obtain ⟨hs, hnot, htidy⟩ := htidy
  have hother : ∀ {j}, held j s → j = i := fun hj => hown _ _ _ (h.owned hj) (h.owned hs)
  have hle : ∀ {j t}, Function.update held i (fun t => held i t ∧ t ≠ s) j t →
      held j t ∧ t ≠ s := by
    intro j t hj
    by_cases hji : j = i
    · subst hji; rwa [Function.update_self] at hj
    · rw [Function.update_of_ne hji] at hj
      refine ⟨hj, ?_⟩
      intro hts
      rw [hts] at hj
      exact hji (hother hj)
  have hnew : (σ.state i).copy s = E s := h.busy hs
  rw [Crew.tick_of_cons hrest]
  have hstate : Function.update σ.state i
      (exec F G (.flush s) (σ.state i, σ.mem)).1 = σ.state := Function.update_eq_self _ _
  refine ⟨?_, ?_, ?_, ?_, ?_, ?_, ?_, ?_, h.relaxed_le, ?_⟩
  · intro j
    by_cases hj : j = i
    · subst hj; simp only [Function.update_self, Function.update_self]; exact htidy
    · simp only [Function.update_of_ne hj]; exact h.tidy j
  · intro j t hj
    exact h.owned (hle hj).1
  · intro t ht
    simp only [exec]
    by_cases hts : t = s
    · subst hts; simp only [Function.update_self]; exact hnew
    · rw [Function.update_of_ne hts]
      apply h.idle
      intro j hj
      apply ht j
      by_cases hji : j = i
      · subst hji; simp only [Function.update_self]; exact ⟨hj, hts⟩
      · simp only [Function.update_of_ne hji]; exact hj
  · intro j t hj
    rw [hstate]
    exact h.busy (hle hj).1
  · intro t
    simp only [exec]
    by_cases hts : t = s
    · subst hts; rw [Function.update_self, hnew]
    · simp only [Function.update_of_ne hts]; exact h.le_mem t
  · intro t
    simp only [exec]
    by_cases hts : t = s
    · subst hts; simp only [Function.update_self]; exact h.copy_le i t
    · simp only [Function.update_of_ne hts]; exact h.mem_le t
  · rw [hstate]; exact h.le_copy
  · rw [hstate]; exact h.copy_le
  · intro j t hj
    simp only [exec]
    have hts : t ≠ s := by
      rintro rfl
      cases hj with
      | inl hj => exact (hle hj).2 rfl
      | inr hj =>
        by_cases hji : j = i
        · subst hji
          simp only [Function.update_self] at hj
          exact hnot hj
        · simp only [Function.update_of_ne hji] at hj
          exact hji (hown _ _ _ ((h.tidy j).own_of_mem hj) (h.owned hs))
    rw [Function.update_of_ne hts]
    apply h.waits (i := j)
    cases hj with
    | inl hj => exact Or.inl (hle hj).1
    | inr hj =>
      right
      by_cases hji : j = i
      · subst hji
        simp only [Function.update_self] at hj
        rw [hrest]
        exact hj
      · simpa only [Function.update_of_ne hji] using hj

end Step

/-- Every turn keeps the table falling. -/
theorem Falling.tick (hF : Monotone F) {V : S → W} (hV : ∀ s, F V s ≤ V s)
    {own : ι → S → Prop} (hown : ∀ i j s, own i s → own j s → i = j)
    {σ : Crew ι (Op S) (Sheet S W Δ) (S → W)} {i : ι}
    (h : ∃ E held, Falling F V own E held σ) :
    ∃ E held, Falling F V own E held (Crew.tick (exec F G) σ i) := by
  obtain ⟨E, held, h⟩ := h
  cases hrest : σ.rest i with
  | nil => rw [Crew.tick_of_nil hrest]; exact ⟨E, held, h⟩
  | cons op ops =>
    cases op with
    | fetch s => exact ⟨_, _, h.fetch hrest⟩
    | relax s => exact ⟨_, _, h.relax hF hV hown hrest⟩
    | flush s => exact ⟨_, _, h.flush hown hrest⟩

theorem Falling.run (hF : Monotone F) {V : S → W} (hV : ∀ s, F V s ≤ V s)
    {own : ι → S → Prop} (hown : ∀ i j s, own i s → own j s → i = j) (sched : List ι)
    {σ : Crew ι (Op S) (Sheet S W Δ) (S → W)} (h : ∃ E held, Falling F V own E held σ) :
    ∃ E held, Falling F V own E held (Crew.run (exec F G) sched σ) := by
  apply Crew.run_induction (P := fun σ => ∃ E held, Falling F V own E held σ) _ sched σ h
  intro σ i h
  exact Falling.tick hF hV hown h

theorem Falling.start {V : S → W} (hV : ∀ s, F V s ≤ V s) {own : ι → S → Prop}
    {prog : ι → List (Op S)} (hprog : ∀ i, Tidy (own i) (fun _ => False) (prog i)) {d : Δ} :
    Falling F V own V (fun _ _ => False) ⟨V, fun _ => ⟨V, d⟩, prog⟩ :=
  ⟨hprog, False.elim, fun _ => rfl, False.elim, fun _ => le_refl _, fun _ => le_refl _,
    fun _ _ => le_refl _, fun _ _ => le_refl _, hV, fun _ => rfl⟩

/-- A write never raises the table. -/
theorem Falling.flush_le {V E : S → W} {own held : ι → S → Prop}
    {σ : Crew ι (Op S) (Sheet S W Δ) (S → W)} (h : Falling F V own E held σ) {i : ι} {s : S}
    {ops : List (Op S)} (hrest : σ.rest i = .flush s :: ops) :
    (σ.state i).copy s ≤ σ.mem s := by
  have htidy := h.tidy i
  rw [hrest] at htidy
  rw [h.busy htidy.1]
  exact h.le_mem s

/-- After the run the table is again above what `F` makes of it. -/
theorem Falling.relaxed_le_of_finished {V E : S → W} {own held : ι → S → Prop}
    {σ : Crew ι (Op S) (Sheet S W Δ) (S → W)} (h : Falling F V own E held σ)
    (hfin : σ.Finished) (s : S) : F σ.mem s ≤ σ.mem s := by
  have hidle : ∀ i s, ¬ held i s := by
    intro i s
    have htidy := h.tidy i
    rw [hfin i] at htidy
    exact htidy s
  have hmem : σ.mem = E := funext fun s => h.idle fun i => hidle i s
  rw [hmem]
  exact h.relaxed_le s

end Falling

end Replica
