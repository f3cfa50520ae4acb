import Mathlib.Algebra.BigOperators.Group.List.Basic
import Mathlib.Algebra.Order.BigOperators.Group.List
import Mathlib.Algebra.Order.Ring.Nat
import Mathlib.Order.Bounds.Basic
import Mathlib.Order.RelClasses
import ValueIteration.Lib.MinHeap

/-!
# Least chains by a lazily deleted heap

Passages with weights, some of weight zero, lead from node to node, and seeds give nodes
a first cost. A chain starts at a node, follows passages and ends with a seed. The search
keeps a label for each node and a heap of labels, in which a lowered label is pushed again
and the old entry is dropped when it is popped. Only costs below a bound count.

An entry popped with the node's own label settles the node. Labels are popped in ascending
order, so a settled label is final, and the node that a lowered label is taken from is
settled before the node it lowers.
-/

set_option autoImplicit false

namespace Dijkstra

/-- A passage from `source`; where it leads is the node whose list it stands in. -/
structure Passage (ι τ : Type) where
  source : ι
  weight : Nat
  tag : τ

section Chains

variable {ι τ : Type} (into : ι → List (Passage ι τ)) (seed : ι → Nat → τ → Prop)

/-- A chain of passages from a node to a seeded one, with its total cost. -/
inductive Chain : ι → Nat → Prop
  | seed {s : ι} {c : Nat} {t : τ} : seed s c t → Chain s c
  | step {p : ι} {c : Nat} {e : Passage ι τ} :
      e ∈ into p → Chain p c → Chain e.source (e.weight + c)

variable {into seed}

theorem Chain.mono {into' : ι → List (Passage ι τ)} {seed' : ι → Nat → τ → Prop}
    (hinto : ∀ p, ∀ e ∈ into p, e ∈ into' p) (hseed : ∀ s c t, seed s c t → seed' s c t)
    {q : ι} {c : Nat} (h : Chain into seed q c) : Chain into' seed' q c := by
  induction h with
  | seed hs => exact .seed (hseed _ _ _ hs)
  | step he _ ih => exact .step (hinto _ _ he) ih

/-- Labels that no seed and no passage can lower are at most the cost of every chain. -/
theorem Chain.le_of_closed {dist : ι → Nat} {bound : Nat} {q : ι} {c : Nat}
    (hseed : ∀ s c t, seed s c t → c < bound → dist s ≤ c)
    (hclosed : ∀ p, dist p < bound → ∀ e ∈ into p, e.weight + dist p < bound →
      dist e.source ≤ e.weight + dist p)
    (h : Chain into seed q c) (hc : c < bound) : dist q ≤ c := by
  induction h with
  | seed hs => exact hseed _ _ _ hs hc
  | @step p c e he _ ih =>
    have hp : dist p ≤ c := ih (by omega)
    have hstep := hclosed p (by omega) e he (by omega)
    omega

end Chains

section Lineage

variable {ι : Type} (parent : ι → Option ι)

/-- A node, its parent, the parent of that and so on up to a root. -/
inductive Lineage : ι → List ι → Prop
  | root {q : ι} : parent q = none → Lineage q [q]
  | step {q p : ι} {l : List ι} : parent q = some p → Lineage p l → Lineage q (q :: l)

variable {parent}

theorem exists_lineage (hforest : WellFounded fun p q => parent q = some p) (q : ι) :
    ∃ l, Lineage parent q l := by
  induction q using hforest.induction with
  | h q ih =>
    cases hp : parent q with
    | none => exact ⟨[q], .root hp⟩
    | some p =>
      obtain ⟨l, hl⟩ := ih p hp
      exact ⟨q :: l, .step hp hl⟩

theorem Lineage.eq_or_transGen {q : ι} {l : List ι} (h : Lineage parent q l) :
    ∀ x ∈ l, x = q ∨ Relation.TransGen (fun p q => parent q = some p) x q := by
  induction h with
  | root _ => exact fun x hx => .inl (List.mem_singleton.mp hx)
  | @step q p l hp _ ih =>
    intro x hx
    rcases List.mem_cons.mp hx with rfl | hx
    · exact .inl rfl
    · rcases ih x hx with rfl | htrans
      · exact .inr (.single hp)
      · exact .inr (htrans.tail hp)

/-- In a forest no node occurs twice among its own ancestors. -/
theorem Lineage.nodup (hforest : WellFounded fun p q => parent q = some p) {q : ι} {l : List ι}
    (h : Lineage parent q l) : l.Nodup := by
  induction h with
  | root _ => exact List.nodup_singleton _
  | @step q p l hp hl ih =>
    refine List.nodup_cons.mpr ⟨?_, ih⟩
    intro hq
    have hloop : Relation.TransGen (fun p q => parent q = some p) q q := by
      rcases hl.eq_or_transGen q hq with rfl | htrans
      · exact .single hp
      · exact htrans.tail hp
    exact hforest.transGen.asymmetric q q hloop hloop

theorem Lineage.forall_mem {P : ι → Prop} (hup : ∀ q p, parent q = some p → P p) {q : ι}
    {l : List ι} (h : Lineage parent q l) (hq : P q) : ∀ x ∈ l, P x := by
  induction h with
  | root _ =>
    intro x hx
    rw [List.mem_singleton.mp hx]
    exact hq
  | @step q p l hp _ ih =>
    intro x hx
    rcases List.mem_cons.mp hx with rfl | hx
    · exact hq
    · exact ih (hup _ _ hp) x hx

end Lineage

/-- Labels, the nodes and tags they come from, and the heap. -/
structure Labels (ι τ : Type) [LinearOrder ι] where
  dist : ι → Nat
  parent : ι → Option ι
  via : ι → τ
  heap : MinHeap (Nat ×ₗ ι)

section Search

variable {ι τ : Type} [LinearOrder ι] (into : ι → List (Passage ι τ)) (bound : Nat)

namespace Labels

/-- Take the label over from `p`, popped with `dp`, where that lowers it. -/
def relax (p : ι) (dp : Nat) (L : Labels ι τ) (e : Passage ι τ) : Labels ι τ :=
  if e.weight + dp < bound ∧ e.weight + dp < L.dist e.source then
    { dist := Function.update L.dist e.source (e.weight + dp)
      parent := Function.update L.parent e.source (some p)
      via := Function.update L.via e.source e.tag
      heap := L.heap.push (toLex (e.weight + dp, e.source)) }
  else L

/-- A popped entry: dropped when the label has been lowered since. -/
def visit (dp : Nat) (p : ι) (L : Labels ι τ) : Labels ι τ :=
  if L.dist p < dp then L else (into p).foldl (relax bound p dp) L

/-- Pop until the heap is empty; `none` when the fuel runs out before. -/
def search : Nat → Labels ι τ → Option (Labels ι τ)
  | fuel, L =>
    match L.heap.pop with
    | none => some L
    | some (top, heap) =>
      match fuel with
      | 0 => none
      | fuel + 1 => search fuel ({ L with heap := heap }.visit into bound (ofLex top).1 (ofLex top).2)

end Labels

variable {bound} {L : Labels ι τ} {p q : ι} {dp : Nat} {e : Passage ι τ}

theorem relax_of_lt (h : e.weight + dp < bound ∧ e.weight + dp < L.dist e.source) :
    L.relax bound p dp e =
      { dist := Function.update L.dist e.source (e.weight + dp)
        parent := Function.update L.parent e.source (some p)
        via := Function.update L.via e.source e.tag
        heap := L.heap.push (toLex (e.weight + dp, e.source)) } := if_pos h

theorem relax_of_not (h : ¬ (e.weight + dp < bound ∧ e.weight + dp < L.dist e.source)) :
    L.relax bound p dp e = L := if_neg h

variable (bound)

section Invariant

variable (seed : ι → Nat → τ → Prop)

/-- What holds between two pops; `owed` are the passages into settled nodes that have not
been tried yet. The newest settled node stands first. -/
structure Inv (L : Labels ι τ) (settled : List ι) (owed : ι → Passage ι τ → Prop) : Prop where
  chain : ∀ q, L.dist q < bound → Chain into seed q (L.dist q)
  le_bound : ∀ q, L.dist q ≤ bound
  entry : ∀ v q, toLex (v, q) ∈ L.heap → L.dist q ≤ v ∧ v < bound
  floor : ∀ p ∈ settled, ∀ v q, toLex (v, q) ∈ L.heap → L.dist p ≤ v
  reached : ∀ p ∈ settled, L.dist p < bound
  listed : ∀ q, L.dist q < bound → q ∈ settled ∨ toLex (L.dist q, q) ∈ L.heap
  tried : ∀ p ∈ settled, ∀ e ∈ into p, owed p e ∨
    (e.weight + L.dist p < bound → L.dist e.source ≤ e.weight + L.dist p)
  seeded : ∀ s c t, seed s c t → c < bound → L.dist s ≤ c
  root : ∀ q, L.dist q < bound → L.parent q = none → seed q (L.dist q) (L.via q)
  linked : ∀ q p, L.parent q = some p → L.dist q < bound ∧ p ∈ settled ∧
    ∃ e ∈ into p, e.source = q ∧ e.tag = L.via q ∧ L.dist q = e.weight + L.dist p
  forest : ∀ p rest, (p :: rest) <:+ settled → ∀ p', L.parent p = some p' → p' ∈ rest

/-- While the passages into the newest settled node `p` are tried. -/
structure Relaxing (L : Labels ι τ) (settled : List ι) (p : ι) (dp : Nat)
    (owed : Passage ι τ → Prop) : Prop
    extends Inv into bound seed L (p :: settled) fun p' e => p' = p ∧ owed e where
  label : L.dist p = dp
  below : ∀ s ∈ p :: settled, L.dist s ≤ dp
  above : ∀ v q, toLex (v, q) ∈ L.heap → dp ≤ v

/-- What the labels and pointers say once the heap is empty. -/
structure Solved (L : Labels ι τ) : Prop where
  chain : ∀ q, L.dist q < bound → Chain into seed q (L.dist q)
  le_bound : ∀ q, L.dist q ≤ bound
  least : ∀ q c, Chain into seed q c → c < bound → L.dist q ≤ c
  root : ∀ q, L.dist q < bound → L.parent q = none → seed q (L.dist q) (L.via q)
  linked : ∀ q p, L.parent q = some p → L.dist q < bound ∧ L.dist p < bound ∧
    ∃ e ∈ into p, e.source = q ∧ e.tag = L.via q ∧ L.dist q = e.weight + L.dist p
  forest : WellFounded fun p q => L.parent q = some p

variable {into bound seed} {settled : List ι} {owed : ι → Passage ι τ → Prop} {rest : MinHeap (Nat ×ₗ ι)}

/-- Labels that are seeds and nothing else, all of them on the heap. -/
theorem Inv.start (hseed : ∀ q, L.dist q < bound → seed q (L.dist q) (L.via q))
    (hle : ∀ q, L.dist q ≤ bound) (hleast : ∀ s c t, seed s c t → c < bound → L.dist s ≤ c)
    (hparent : ∀ q, L.parent q = none)
    (hheap : ∀ v q, toLex (v, q) ∈ L.heap ↔ L.dist q = v ∧ v < bound) :
    Inv into bound seed L [] fun _ _ => False where
  chain q hq := .seed (hseed q hq)
  le_bound := hle
  entry v q hv := by
    obtain ⟨heq, hlt⟩ := (hheap v q).mp hv
    exact ⟨le_of_eq heq, hlt⟩
  floor p hp := absurd hp List.not_mem_nil
  reached p hp := absurd hp List.not_mem_nil
  listed q hq := .inr ((hheap _ q).mpr ⟨rfl, hq⟩)
  tried p hp := absurd hp List.not_mem_nil
  seeded := hleast
  root q hq _ := hseed q hq
  linked q p hp := by
    rw [hparent q] at hp
    cases hp
  forest p rest hsuffix := by
    have hnil := List.suffix_nil.mp hsuffix
    cases hnil

/-- A stale entry is dropped: the node's own label is on the heap or it is settled. -/
theorem Inv.drop (h : Inv into bound seed L settled owed)
    (hpop : L.heap.pop = some (toLex (dp, p), rest)) (hstale : L.dist p < dp) :
    Inv into bound seed { L with heap := rest } settled owed where
  chain := h.chain
  le_bound := h.le_bound
  entry v q hv := h.entry v q ((MinHeap.mem_iff_of_pop hpop).mpr (.inr hv))
  floor s hs v q hv := h.floor s hs v q ((MinHeap.mem_iff_of_pop hpop).mpr (.inr hv))
  reached := h.reached
  listed q hq := by
    rcases h.listed q hq with hset | hmem
    · exact .inl hset
    · rcases (MinHeap.mem_iff_of_pop hpop).mp hmem with heq | hrest
      · have hpair : (L.dist q, q) = (dp, p) := toLex.injective heq
        have hq : q = p := congrArg Prod.snd hpair
        have hdist : L.dist q = dp := congrArg Prod.fst hpair
        subst hq
        omega
      · exact .inr hrest
  tried := h.tried
  seeded := h.seeded
  root := h.root
  linked := h.linked
  forest := h.forest

/-- An entry with the node's own label settles the node: every settled label is at most
this one and every entry left is at least it. -/
theorem Inv.settle (h : Inv into bound seed L settled fun _ _ => False)
    (hpop : L.heap.pop = some (toLex (dp, p), rest)) (hlabel : ¬ L.dist p < dp) :
    Relaxing into bound seed { L with heap := rest } settled p dp (· ∈ into p) := by
  have htop : toLex (dp, p) ∈ L.heap := (MinHeap.mem_iff_of_pop hpop).mpr (.inl rfl)
  have hentry := h.entry dp p htop
  have hdp : L.dist p = dp := by omega
  have hbelow : ∀ s ∈ p :: settled, L.dist s ≤ dp := by
    intro s hs
    rcases List.mem_cons.mp hs with rfl | hs
    · exact le_of_eq hdp
    · exact h.floor s hs dp p htop
  have habove : ∀ v q, toLex (v, q) ∈ rest → dp ≤ v := by
    intro v q hv
    have hle := MinHeap.le_of_pop hpop ((MinHeap.mem_iff_of_pop hpop).mpr (.inr hv))
    rcases Prod.Lex.toLex_le_toLex.mp hle with hlt | ⟨heq, -⟩
    · exact le_of_lt hlt
    · exact le_of_eq heq
  refine ⟨⟨h.chain, h.le_bound, ?_, ?_, ?_, ?_, ?_, h.seeded, h.root, ?_, ?_⟩, hdp, hbelow, habove⟩
  · intro v q hv
    exact h.entry v q ((MinHeap.mem_iff_of_pop hpop).mpr (.inr hv))
  · intro s hs v q hv
    exact (hbelow s hs).trans (habove v q hv)
  · intro s hs
    exact lt_of_le_of_lt (hbelow s hs) hentry.2
  · intro q hq
    rcases h.listed q hq with hset | hmem
    · exact .inl (List.mem_cons_of_mem p hset)
    · rcases (MinHeap.mem_iff_of_pop hpop).mp hmem with heq | hrest
      · have hq : q = p := congrArg Prod.snd (toLex.injective heq)
        rw [hq]
        exact .inl List.mem_cons_self
      · exact .inr hrest
  · intro s hs e he
    rcases List.mem_cons.mp hs with rfl | hs
    · exact .inl ⟨rfl, he⟩
    · rcases h.tried s hs e he with hfalse | hle
      · exact hfalse.elim
      · exact .inr hle
  · intro q p' hp'
    obtain ⟨hq, hset, he⟩ := h.linked q p' hp'
    exact ⟨hq, List.mem_cons_of_mem p hset, he⟩
  · intro s tail hsuffix p' hp'
    rcases List.suffix_cons_iff.mp hsuffix with heq | hold
    · obtain ⟨rfl, rfl⟩ := List.cons.inj heq
      exact (h.linked s p' hp').2.1
    · exact h.forest s tail hold p' hp'

/-- One passage. A lowered node is not settled, since settled labels are at most `dp`. -/
theorem Relaxing.relax {es : List (Passage ι τ)}
    (h : Relaxing into bound seed L settled p dp (· ∈ e :: es)) (he : e ∈ into p) :
    Relaxing into bound seed (L.relax bound p dp e) settled p dp (· ∈ es) := by
  by_cases hlow : e.weight + dp < bound ∧ e.weight + dp < L.dist e.source
  · have hnew : ∀ s ∈ p :: settled, s ≠ e.source := by
      intro s hs heq
      have hle := h.below s hs
      rw [heq] at hle
      omega
    have hold : ∀ s ∈ p :: settled,
        Function.update L.dist e.source (e.weight + dp) s = L.dist s := fun s hs =>
      Function.update_of_ne (hnew s hs) _ _
    have hp : Function.update L.dist e.source (e.weight + dp) p = dp :=
      (hold p List.mem_cons_self).trans h.label
    have hless : ∀ q, Function.update L.dist e.source (e.weight + dp) q ≤ L.dist q := by
      intro q
      by_cases hq : q = e.source
      · subst hq
        rw [Function.update_self]
        exact le_of_lt hlow.2
      · rw [Function.update_of_ne hq]
    rw [relax_of_lt hlow]
    refine ⟨⟨?_, ?_, ?_, ?_, ?_, ?_, ?_, ?_, ?_, ?_, ?_⟩, hp, ?_, ?_⟩
    · intro q hq
      by_cases hqe : q = e.source
      · subst hqe
        simp only [Function.update_self]
        have hchain := h.chain p (h.reached p List.mem_cons_self)
        rw [h.label] at hchain
        exact .step he hchain
      · simp only [Function.update_of_ne hqe] at hq ⊢
        exact h.chain q hq
    · intro q
      exact (hless q).trans (h.le_bound q)
    · intro v q hv
      rcases MinHeap.mem_push.mp hv with heq | hv
      · obtain ⟨rfl, rfl⟩ := Prod.mk.inj (toLex.injective heq)
        simp only [Function.update_self]
        exact ⟨le_refl _, hlow.1⟩
      · obtain ⟨hle, hlt⟩ := h.entry v q hv
        exact ⟨(hless q).trans hle, hlt⟩
    · intro s hs v q hv
      simp only [hold s hs]
      rcases MinHeap.mem_push.mp hv with heq | hv
      · obtain ⟨rfl, rfl⟩ := Prod.mk.inj (toLex.injective heq)
        have hle := h.below s hs
        omega
      · exact h.floor s hs v q hv
    · intro s hs
      simp only [hold s hs]
      exact h.reached s hs
    · intro q hq
      by_cases hqe : q = e.source
      · subst hqe
        simp only [Function.update_self]
        exact .inr (MinHeap.mem_push.mpr (.inl rfl))
      · simp only [Function.update_of_ne hqe] at hq ⊢
        rcases h.listed q hq with hset | hmem
        · exact .inl hset
        · exact .inr (MinHeap.mem_push.mpr (.inr hmem))
    · intro s hs e' he'
      simp only [hold s hs]
      rcases h.tried s hs e' he' with ⟨rfl, howed⟩ | hle
      · rcases List.mem_cons.mp howed with rfl | howed
        · right
          intro _
          rw [Function.update_self, h.label]
        · exact .inl ⟨rfl, howed⟩
      · exact .inr fun hlt => (hless _).trans (hle hlt)
    · intro s c t hs hc
      exact (hless s).trans (h.seeded s c t hs hc)
    · intro q hq hparent
      by_cases hqe : q = e.source
      · subst hqe
        simp only [Function.update_self] at hparent
        cases hparent
      · simp only [Function.update_of_ne hqe] at hq hparent ⊢
        exact h.root q hq hparent
    · intro q p' hp'
      by_cases hqe : q = e.source
      · subst hqe
        simp only [Function.update_self, Option.some.injEq] at hp'
        subst hp'
        simp only [Function.update_self, hp]
        exact ⟨hlow.1, List.mem_cons_self, e, he, rfl, rfl, rfl⟩
      · simp only [Function.update_of_ne hqe] at hp' ⊢
        obtain ⟨hq, hset, hedge⟩ := h.linked q p' hp'
        rw [hold p' hset]
        exact ⟨hq, hset, hedge⟩
    · intro s tail hsuffix p' hp'
      have hs : s ∈ p :: settled := hsuffix.subset List.mem_cons_self
      simp only [Function.update_of_ne (hnew s hs)] at hp'
      exact h.forest s tail hsuffix p' hp'
    · intro s hs
      simp only [hold s hs]
      exact h.below s hs
    · intro v q hv
      rcases MinHeap.mem_push.mp hv with heq | hv
      · obtain ⟨rfl, rfl⟩ := Prod.mk.inj (toLex.injective heq)
        omega
      · exact h.above v q hv
  · rw [relax_of_not hlow]
    refine ⟨⟨h.chain, h.le_bound, h.entry, h.floor, h.reached, h.listed, ?_, h.seeded, h.root,
      h.linked, h.forest⟩, h.label, h.below, h.above⟩
    intro s hs e' he'
    rcases h.tried s hs e' he' with ⟨rfl, howed⟩ | hle
    · rcases List.mem_cons.mp howed with rfl | howed
      · right
        intro hlt
        rw [h.label] at hlt ⊢
        omega
      · exact .inl ⟨rfl, howed⟩
    · exact .inr hle

theorem Relaxing.foldl {es : List (Passage ι τ)} : ∀ {L : Labels ι τ},
    Relaxing into bound seed L settled p dp (· ∈ es) → (∀ e ∈ es, e ∈ into p) →
    Inv into bound seed (es.foldl (Labels.relax bound p dp) L) (p :: settled) fun _ _ => False := by
  induction es with
  | nil =>
    intro L h _
    refine ⟨h.chain, h.le_bound, h.entry, h.floor, h.reached, h.listed, ?_, h.seeded, h.root,
      h.linked, h.forest⟩
    intro s hs e he
    rcases h.tried s hs e he with ⟨-, hnil⟩ | hle
    · exact absurd hnil List.not_mem_nil
    · exact .inr hle
  | cons e es ih =>
    intro L h hes
    exact ih (h.relax (hes e List.mem_cons_self)) fun e' he' => hes e' (List.mem_cons_of_mem e he')

theorem Inv.visit (h : Inv into bound seed L settled fun _ _ => False)
    (hpop : L.heap.pop = some (toLex (dp, p), rest)) :
    ∃ settled', Inv into bound seed ({ L with heap := rest }.visit into bound dp p) settled'
      fun _ _ => False := by
  unfold Labels.visit
  by_cases hstale : L.dist p < dp
  · rw [if_pos hstale]
    exact ⟨settled, h.drop hpop hstale⟩
  · rw [if_neg hstale]
    exact ⟨p :: settled, (h.settle hpop hstale).foldl fun e he => he⟩

/-- The settled nodes of a list whose later ones are settled earlier have no endless
line of parents. -/
theorem Inv.acc (h : Inv into bound seed L settled owed) :
    ∀ l, l <:+ settled → ∀ p ∈ l, Acc (fun p q => L.parent q = some p) p := by
  intro l
  induction l with
  | nil => exact fun _ p hp => absurd hp List.not_mem_nil
  | cons s rest ih =>
    intro hsuffix p hp
    have hrest := ih ((List.suffix_cons s rest).trans hsuffix)
    rcases List.mem_cons.mp hp with rfl | hp
    · exact ⟨p, fun p' hp' => hrest p' (h.forest p rest hsuffix p' hp')⟩
    · exact hrest p hp

theorem Inv.solved (h : Inv into bound seed L settled fun _ _ => False)
    (hpop : L.heap.pop = none) : Solved into bound seed L := by
  have hsettled : ∀ q, L.dist q < bound → q ∈ settled := by
    intro q hq
    rcases h.listed q hq with hset | hmem
    · exact hset
    · exact absurd hmem (MinHeap.not_mem_of_pop_none hpop _)
  refine ⟨h.chain, h.le_bound, ?_, h.root, ?_, ?_⟩
  · intro q c hc
    apply hc.le_of_closed h.seeded
    intro p hp e he
    rcases h.tried p (hsettled p hp) e he with hfalse | hle
    · exact hfalse.elim
    · exact hle
  · intro q p hp
    obtain ⟨hq, hset, hedge⟩ := h.linked q p hp
    exact ⟨hq, h.reached p hset, hedge⟩
  · refine ⟨fun q => ⟨q, fun p hp => ?_⟩⟩
    exact h.acc settled (List.suffix_refl settled) p (h.linked q p hp).2.1

/-- Whatever the search returns is solved. -/
theorem Inv.search : ∀ {fuel : Nat} {L L' : Labels ι τ} {settled : List ι},
    Inv into bound seed L settled (fun _ _ => False) →
    L.search into bound fuel = some L' → Solved into bound seed L' := by
  intro fuel
  induction fuel with
  | zero =>
    intro L L' settled h hrun
    unfold Labels.search at hrun
    cases hpop : L.heap.pop with
    | none =>
      rw [hpop] at hrun
      cases hrun
      exact h.solved hpop
    | some out =>
      rw [hpop] at hrun
      cases hrun
  | succ fuel ih =>
    intro L L' settled h hrun
    unfold Labels.search at hrun
    cases hpop : L.heap.pop with
    | none =>
      rw [hpop] at hrun
      cases hrun
      exact h.solved hpop
    | some out =>
      rw [hpop] at hrun
      obtain ⟨settled', hvisit⟩ := h.visit hpop
      exact ih hvisit hrun

end Invariant

section Fuel

/-- What every pop lowers: the labels and the entries. -/
def potential (univ : List ι) (L : Labels ι τ) : Nat :=
  (univ.map L.dist).sum + L.heap.entries.length

theorem sum_update_lt {univ : List ι} {f : ι → Nat} {q : ι} {v : Nat} (hq : q ∈ univ)
    (hv : v < f q) : (univ.map (Function.update f q v)).sum < (univ.map f).sum := by
  apply List.sum_lt_sum
  · intro i _
    by_cases hi : i = q
    · subst hi
      rw [Function.update_self]
      exact le_of_lt hv
    · rw [Function.update_of_ne hi]
  · exact ⟨q, hq, by rwa [Function.update_self]⟩

variable {into bound} {univ : List ι}

theorem potential_relax (he : e.source ∈ univ) :
    potential univ (L.relax bound p dp e) ≤ potential univ L := by
  by_cases hlow : e.weight + dp < bound ∧ e.weight + dp < L.dist e.source
  · rw [relax_of_lt hlow]
    have hsum := sum_update_lt he hlow.2
    simp only [potential, MinHeap.length_push]
    omega
  · rw [relax_of_not hlow]

theorem potential_foldl {es : List (Passage ι τ)} (hes : ∀ e ∈ es, e.source ∈ univ) :
    potential univ (es.foldl (Labels.relax bound p dp) L) ≤ potential univ L := by
  induction es generalizing L with
  | nil => exact le_refl _
  | cons e es ih =>
    rw [List.foldl_cons]
    apply (ih fun e' he' => hes e' (List.mem_cons_of_mem e he')).trans
    exact potential_relax (hes e List.mem_cons_self)

theorem potential_visit (hinto : ∀ p, ∀ e ∈ into p, e.source ∈ univ) :
    potential univ (L.visit into bound dp p) ≤ potential univ L := by
  unfold Labels.visit
  split
  · exact le_refl _
  · exact potential_foldl (hinto p)

/-- The labels and entries bound the number of pops. -/
theorem search_isSome (hinto : ∀ p, ∀ e ∈ into p, e.source ∈ univ) : ∀ {fuel : Nat}
    {L : Labels ι τ}, potential univ L ≤ fuel → (L.search into bound fuel).isSome := by
  intro fuel
  induction fuel with
  | zero =>
    intro L hfuel
    unfold Labels.search
    cases hpop : L.heap.pop with
    | none => rfl
    | some out =>
      have hlen := MinHeap.length_of_pop hpop
      unfold potential at hfuel
      omega
  | succ fuel ih =>
    intro L hfuel
    unfold Labels.search
    cases hpop : L.heap.pop with
    | none => rfl
    | some out =>
      apply ih
      have hlen := MinHeap.length_of_pop hpop
      have hpopped : potential univ { L with heap := out.2 } ≤ fuel := by
        unfold potential at hfuel ⊢
        simp only
        omega
      exact (potential_visit hinto).trans hpopped

end Fuel

end Search

end Dijkstra
