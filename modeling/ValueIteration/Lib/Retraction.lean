import Mathlib.Data.List.Basic
import Mathlib.Data.List.Nodup
import Mathlib.Data.Finset.Card

/-!
# Withdrawing choices along reverse edges

Every node may hold a choice, and a choice leads to some nodes. A worklist pops a
node and withdraws the choices that lead to it; each node that loses its choice is
queued in turn. No visited set is kept: a node without a choice is not visited
again. From any start the withdrawn nodes are the least set that contains every
node whose choice leads into the initial worklist or into the set.
-/

set_option autoImplicit false

namespace Retraction

variable {ι α : Type}

/-- `log` lists the withdrawn nodes in the order of withdrawal. -/
structure Machine (ι α : Type) where
  choice : ι → Option α
  pending : List ι
  log : List ι

variable (preds : ι → List (ι × α))

/-- The choice of `q` leads to `p`. -/
def Leads (choice : ι → Option α) (q p : ι) : Prop := ∃ a, choice q = some a ∧ (q, a) ∈ preds p

/-- The least set of nodes whose choice leads into `C` or into the set. -/
inductive Withdrawn (choice : ι → Option α) (C : ι → Prop) : ι → Prop where
  | base {q p : ι} : Leads preds choice q p → C p → Withdrawn choice C q
  | step {q p : ι} : Leads preds choice q p → Withdrawn choice C p → Withdrawn choice C q

/-- It is contained in every set closed under the rule. -/
theorem Withdrawn.least {preds : ι → List (ι × α)} {choice : ι → Option α} {C S : ι → Prop}
    (hS : ∀ q p, Leads preds choice q p → C p ∨ S p → S q) {q : ι}
    (h : Withdrawn preds choice C q) : S q := by
  induction h with
  | base hl hp => exact hS _ _ hl (Or.inl hp)
  | step hl _ ih => exact hS _ _ hl (Or.inr ih)

section
variable [DecidableEq ι] [DecidableEq α]

/-- One reverse edge: withdraw the choice if it is the one of the edge. -/
def visit (m : Machine ι α) (e : ι × α) : Machine ι α :=
  if m.choice e.1 = some e.2 then
    ⟨Function.update m.choice e.1 none, m.pending ++ [e.1], m.log ++ [e.1]⟩
  else m

/-- Pop one node. -/
def step (m : Machine ι α) : Option (Machine ι α) :=
  match m.pending with
  | [] => none
  | p :: rest => some ((preds p).foldl visit { m with pending := rest })

end

section
variable [DecidableEq ι]

/-- The invariant of the worklist. A node of `C` or of the log that is no longer
pending has had all its reverse edges visited. -/
structure Inv (choice : ι → Option α) (C : ι → Prop) (m : Machine ι α) : Prop where
  choice_eq : ∀ q, m.choice q = if q ∈ m.log then none else choice q
  sound : ∀ q ∈ m.log, Withdrawn preds choice C q
  nodup : m.log.Nodup
  pending : ∀ p ∈ m.pending, C p ∨ p ∈ m.log
  closed : ∀ p, C p ∨ p ∈ m.log → p ∈ m.pending ∨ ∀ q, Leads preds choice q p → q ∈ m.log

variable {preds} {choice : ι → Option α} {C : ι → Prop}

theorem Inv.start {pending : List ι} (hp : ∀ p, p ∈ pending ↔ C p) :
    Inv preds choice C ⟨choice, pending, []⟩ where
  choice_eq q := by simp
  sound q hq := by cases hq
  nodup := List.nodup_nil
  pending p h := Or.inl ((hp p).mp h)
  closed p h := by
    cases h with
    | inl h => exact Or.inl ((hp p).mpr h)
    | inr h => cases h

end

variable [DecidableEq ι] [DecidableEq α] {preds : ι → List (ι × α)} {choice : ι → Option α}
  {C : ι → Prop}

/-- While `p` is being popped: some of its reverse edges are visited. -/
structure Popping (preds : ι → List (ι × α)) (choice : ι → Option α) (C : ι → Prop) (p : ι)
    (done : List (ι × α)) (m : Machine ι α) : Prop where
  choice_eq : ∀ q, m.choice q = if q ∈ m.log then none else choice q
  sound : ∀ q ∈ m.log, Withdrawn preds choice C q
  nodup : m.log.Nodup
  pending : ∀ p ∈ m.pending, C p ∨ p ∈ m.log
  closed : ∀ p', C p' ∨ p' ∈ m.log → p' = p ∨ p' ∈ m.pending ∨
    ∀ q, Leads preds choice q p' → q ∈ m.log
  visited : ∀ e ∈ done, choice e.1 = some e.2 → e.1 ∈ m.log

theorem Popping.visit {p : ι} {done : List (ι × α)} {m : Machine ι α}
    (h : Popping preds choice C p done m) (hp : C p ∨ Withdrawn preds choice C p) {e : ι × α}
    (he : e ∈ preds p) : Popping preds choice C p (done ++ [e]) (visit m e) := by
  unfold Retraction.visit
  by_cases hc : m.choice e.1 = some e.2
  · rw [if_pos hc]
    have hnew : e.1 ∉ m.log := by
      intro hmem
      rw [h.choice_eq, if_pos hmem] at hc
      cases hc
    have hold : choice e.1 = some e.2 := by
      rw [h.choice_eq, if_neg hnew] at hc
      exact hc
    have hlead : Leads preds choice e.1 p := ⟨e.2, hold, he⟩
    have hmem : ∀ q, q ∈ m.log ++ [e.1] ↔ q ∈ m.log ∨ q = e.1 := by
      intro q
      rw [List.mem_append, List.mem_singleton]
    refine ⟨?_, ?_, ?_, ?_, ?_, ?_⟩
    · intro q
      simp only [hmem]
      by_cases hq : q = e.1
      · rw [hq, Function.update_self, if_pos (Or.inr rfl)]
      · rw [Function.update_of_ne hq, h.choice_eq]
        simp only [hq, or_false]
    · intro q hq
      cases (hmem q).mp hq with
      | inl hq => exact h.sound q hq
      | inr hq =>
        subst hq
        cases hp with
        | inl hp => exact .base hlead hp
        | inr hp => exact .step hlead hp
    · apply List.nodup_append.mpr
      refine ⟨h.nodup, List.nodup_singleton _, ?_⟩
      intro a ha b hb
      rw [List.mem_singleton] at hb
      subst hb
      intro hab
      subst hab
      exact hnew ha
    · intro q hq
      rw [List.mem_append, List.mem_singleton] at hq
      rw [hmem]
      cases hq with
      | inl hq =>
        cases h.pending q hq with
        | inl hC => exact Or.inl hC
        | inr hl => exact Or.inr (Or.inl hl)
      | inr hq => exact Or.inr (Or.inr hq)
    · intro p' hp'
      rw [hmem] at hp'
      by_cases hpe : p' = e.1
      · exact Or.inr (Or.inl (List.mem_append.mpr (Or.inr (List.mem_singleton.mpr hpe))))
      · have hp'' : C p' ∨ p' ∈ m.log := by
          rcases hp' with hC | hl | heq
          · exact Or.inl hC
          · exact Or.inr hl
          · exact absurd heq hpe
        rcases h.closed p' hp'' with heq | hpend | hall
        · exact Or.inl heq
        · exact Or.inr (Or.inl (List.mem_append_left _ hpend))
        · exact Or.inr (Or.inr fun q hq => (hmem q).mpr (Or.inl (hall q hq)))
    · intro e' he' hce
      rw [hmem]
      cases List.mem_append.mp he' with
      | inl hd => exact Or.inl (h.visited e' hd hce)
      | inr hs => exact Or.inr (congrArg Prod.fst (List.mem_singleton.mp hs))
  · rw [if_neg hc]
    refine ⟨h.choice_eq, h.sound, h.nodup, h.pending, h.closed, ?_⟩
    intro e' he' hce
    cases List.mem_append.mp he' with
    | inl hd => exact h.visited e' hd hce
    | inr hs =>
      rw [List.mem_singleton.mp hs] at hce ⊢
      by_contra hnot
      apply hc
      rw [h.choice_eq, if_neg hnot]
      exact hce

theorem Popping.foldl {p : ι} (hp : C p ∨ Withdrawn preds choice C p) (es : List (ι × α)) :
    ∀ {done : List (ι × α)} {m : Machine ι α}, Popping preds choice C p done m →
      (∀ e ∈ es, e ∈ preds p) → Popping preds choice C p (done ++ es) (es.foldl Retraction.visit m) := by
  induction es with
  | nil => intro done m h _; rw [List.append_nil]; exact h
  | cons e es ih =>
    intro done m h hes
    have hnext := ih (h.visit hp (hes e List.mem_cons_self)) fun e' he' =>
      hes e' (List.mem_cons_of_mem _ he')
    rw [List.append_assoc, List.singleton_append] at hnext
    exact hnext

/-- Step lemma: popping a node keeps the invariant. -/
theorem Inv.step {m m' : Machine ι α} (h : Inv preds choice C m)
    (hstep : Retraction.step preds m = some m') : Inv preds choice C m' := by
  unfold Retraction.step at hstep
  cases hm : m.pending with
  | nil => rw [hm] at hstep; cases hstep
  | cons p rest =>
    rw [hm] at hstep
    simp only [Option.some.injEq] at hstep
    have hpend : C p ∨ p ∈ m.log := h.pending p (hm ▸ List.mem_cons_self)
    have hp : C p ∨ Withdrawn preds choice C p := hpend.imp_right (h.sound p)
    have hpop : Popping preds choice C p [] { m with pending := rest } := by
      refine ⟨h.choice_eq, h.sound, h.nodup, ?_, ?_, fun e he => (by cases he)⟩
      · intro q hq
        exact h.pending q (hm ▸ List.mem_cons_of_mem _ hq)
      · intro p' hp'
        rcases h.closed p' hp' with hin | hall
        · rw [hm] at hin
          cases List.mem_cons.mp hin with
          | inl heq => exact Or.inl heq
          | inr hin => exact Or.inr (Or.inl hin)
        · exact Or.inr (Or.inr hall)
    have hend := hpop.foldl hp (preds p) fun e he => he
    rw [List.nil_append, hstep] at hend
    refine ⟨hend.choice_eq, hend.sound, hend.nodup, hend.pending, ?_⟩
    intro p' hp'
    rcases hend.closed p' hp' with heq | hin | hall
    · subst heq
      refine Or.inr ?_
      rintro q ⟨a, ha, hmem⟩
      exact hend.visited (q, a) hmem ha
    · exact Or.inl hin
    · exact Or.inr hall

omit [DecidableEq α] in
/-- With nothing pending, the withdrawn nodes are exactly the least set. -/
theorem Inv.exact {m : Machine ι α} (h : Inv preds choice C m) (hend : m.pending = []) (q : ι) :
    q ∈ m.log ↔ Withdrawn preds choice C q := by
  constructor
  · exact h.sound q
  · apply Withdrawn.least
    intro q p hlead hp
    rcases h.closed p hp with hin | hall
    · rw [hend] at hin
      cases hin
    · exact hall q hlead

theorem foldl_visit_log (es : List (ι × α)) : ∀ m : Machine ι α,
    ∃ new, (es.foldl visit m).pending = m.pending ++ new ∧
      (es.foldl visit m).log = m.log ++ new := by
  induction es with
  | nil => intro m; exact ⟨[], by simp⟩
  | cons e es ih =>
    intro m
    obtain ⟨new, hp, hl⟩ := ih (visit m e)
    rw [List.foldl_cons, hp, hl]
    unfold visit
    split
    · exact ⟨e.1 :: new, by simp⟩
    · exact ⟨new, rfl, rfl⟩

/-- What is left to do: the worklist and the nodes that still hold a choice. -/
def potential (nodes : Finset ι) (m : Machine ι α) : Nat :=
  m.pending.length + (nodes.filter fun q => (m.choice q).isSome).card

theorem potential_visit {nodes : Finset ι} {m : Machine ι α}
    (hnodes : ∀ q, (m.choice q).isSome = true → q ∈ nodes) (e : ι × α) :
    potential nodes (visit m e) ≤ potential nodes m ∧
      ∀ q, ((visit m e).choice q).isSome = true → q ∈ nodes := by
  unfold visit
  by_cases hc : m.choice e.1 = some e.2
  · rw [if_pos hc]
    have hsome : (m.choice e.1).isSome = true := by rw [hc]; rfl
    have hin : e.1 ∈ nodes.filter fun q => (m.choice q).isSome :=
      Finset.mem_filter.mpr ⟨hnodes _ hsome, hsome⟩
    have hsub : (nodes.filter fun q => (Function.update m.choice e.1 none q).isSome) =
        (nodes.filter fun q => (m.choice q).isSome).erase e.1 := by
      ext q
      rw [Finset.mem_erase, Finset.mem_filter, Finset.mem_filter]
      by_cases hq : q = e.1
      · simp [hq]
      · simp [hq]
    have hcard := Finset.card_erase_add_one hin
    constructor
    · unfold potential
      simp only [List.length_append, List.length_singleton, hsub]
      omega
    · intro q hq
      by_cases hqe : q = e.1
      · rw [hqe]
        exact hnodes _ hsome
      · have heq : Function.update m.choice e.1 none q = m.choice q :=
          Function.update_of_ne hqe _ _
        exact hnodes q (heq ▸ hq)
  · rw [if_neg hc]
    exact ⟨Nat.le_refl _, hnodes⟩

theorem potential_foldl {nodes : Finset ι} (es : List (ι × α)) : ∀ {m : Machine ι α},
    (∀ q, (m.choice q).isSome = true → q ∈ nodes) →
      potential nodes (es.foldl visit m) ≤ potential nodes m ∧
        ∀ q, ((es.foldl visit m).choice q).isSome = true → q ∈ nodes := by
  induction es with
  | nil => intro m h; exact ⟨Nat.le_refl _, h⟩
  | cons e es ih =>
    intro m h
    obtain ⟨hle, hnodes⟩ := potential_visit h e
    obtain ⟨hle', hnodes'⟩ := ih hnodes
    exact ⟨hle'.trans hle, hnodes'⟩

/-- Every pop uses up one unit of the potential. -/
theorem potential_step {nodes : Finset ι} {m m' : Machine ι α}
    (hnodes : ∀ q, (m.choice q).isSome = true → q ∈ nodes) (h : step preds m = some m') :
    potential nodes m' + 1 ≤ potential nodes m ∧
      ∀ q, (m'.choice q).isSome = true → q ∈ nodes := by
  unfold step at h
  cases hm : m.pending with
  | nil => rw [hm] at h; cases h
  | cons p rest =>
    rw [hm] at h
    simp only [Option.some.injEq] at h
    have hrest : ∀ q, (({ m with pending := rest } : Machine ι α).choice q).isSome = true →
        q ∈ nodes := hnodes
    obtain ⟨hle, hn⟩ := potential_foldl (preds p) hrest
    rw [h] at hle hn
    refine ⟨?_, hn⟩
    have hpot : potential nodes m = potential nodes { m with pending := rest } + 1 := by
      simp only [potential, hm, List.length_cons]
      omega
    omega

end Retraction
