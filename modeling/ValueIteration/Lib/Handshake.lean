import Mathlib.Logic.Function.Basic
import ValueIteration.Lib.Async

/-!
# Evaluation driven by dirty flags

Workers claim items from a queue. A worker takes the flag of its item down, evaluates the
item read by read, stores a new value if there is one, and then raises the flag of everyone
who reads the item; whoever raises a flag that was down queues its owner. Loads and stores
of all workers interleave. No item is evaluated twice in a pass, none is queued twice, and
an item whose value is not that of its evaluation has its flag up at the end.
-/

set_option autoImplicit false

namespace Handshake

open Async

/-- How items are evaluated and who is told of a move. -/
structure Sweep (S V : Type) where
  block : Nat
  update : S → Prog S V (Option V)
  preds : S → List S

/-- `out` is what a worker has queued, `rest` what is left of its claim. -/
inductive Worker (S V : Type) where
  | between (out rest : List S)
  | evaluating (out : List S) (s : S) (p : Prog S V (Option V)) (rest : List S)
  | announcing (out todo rest : List S)
  | waiting (out : List S)

/-- The shared memory; `finished` and `writes` record what was evaluated and stored. -/
structure Machine (S V : Type) where
  mem : S → V
  dirty : S → Bool
  queue : List S
  workers : List (Worker S V)
  finished : List S
  writes : List (S × V)

variable {S V : Type}

namespace Worker

def out : Worker S V → List S
  | between out _ => out
  | evaluating out _ _ _ => out
  | announcing out _ _ => out
  | waiting out => out

/-- Claimed items that were not begun. -/
def rest : Worker S V → List S
  | between _ rest => rest
  | evaluating _ _ _ rest => rest
  | announcing _ _ rest => rest
  | waiting _ => []

/-- The item under evaluation. -/
def current : Worker S V → List S
  | evaluating _ s _ _ => [s]
  | _ => []

/-- Those who have still to be told. -/
def todo : Worker S V → List S
  | announcing _ todo _ => todo
  | _ => []

def isWaiting : Worker S V → Bool
  | waiting _ => true
  | _ => false

/-- Past the barrier. -/
def release : Worker S V → Worker S V
  | waiting out => between out []
  | w => w

end Worker

namespace Sweep

variable (sw : Sweep S V) [DecidableEq S]

/-- One step of worker `i`. -/
def step (σ : Machine S V) (i : Nat) : Machine S V :=
  match σ.workers[i]? with
  | none => σ
  | some (.waiting _) => σ
  | some (.between out []) =>
    if σ.queue.isEmpty then { σ with workers := σ.workers.set i (.waiting out) }
    else { σ with
      queue := σ.queue.drop sw.block
      workers := σ.workers.set i (.between out (σ.queue.take sw.block)) }
  | some (.between out (s :: rest)) =>
    { σ with
      dirty := Function.update σ.dirty s false
      workers := σ.workers.set i (.evaluating out s (sw.update s) rest) }
  | some (.evaluating out s (.load j k) rest) =>
    { σ with workers := σ.workers.set i (.evaluating out s (k (σ.mem j)) rest) }
  | some (.evaluating out s (.store j v k) rest) =>
    { σ with
      mem := Function.update σ.mem j v
      workers := σ.workers.set i (.evaluating out s k rest) }
  | some (.evaluating out s (.ret none) rest) =>
    { σ with
      workers := σ.workers.set i (.between out rest)
      finished := σ.finished ++ [s] }
  | some (.evaluating out s (.ret (some v)) rest) =>
    { σ with
      mem := Function.update σ.mem s v
      workers := σ.workers.set i (.announcing out (sw.preds s) rest)
      finished := σ.finished ++ [s]
      writes := σ.writes ++ [(s, v)] }
  | some (.announcing out [] rest) =>
    { σ with workers := σ.workers.set i (.between out rest) }
  | some (.announcing out (q :: todo) rest) =>
    { σ with
      dirty := Function.update σ.dirty q true
      workers := σ.workers.set i
        (.announcing (if σ.dirty q then out else out ++ [q]) todo rest) }

/-- The next items are handed out to the workers at the barrier. -/
def enter (σ : Machine S V) (bucket : List S) : Machine S V :=
  { σ with queue := bucket, workers := σ.workers.map Worker.release }

/-- Buckets one after the other, with a barrier behind each; `none` for a schedule that ends
before the barrier. -/
def runBuckets (sched : Nat → List Nat) : Nat → List (List S) → Machine S V → Option (Machine S V)
  | _, [], σ => some σ
  | n, bucket :: later, σ =>
    let σ' := (sched n).foldl sw.step (enter σ bucket)
    if σ'.workers.all (·.isWaiting) then runBuckets sched (n + 1) later σ' else none

/-- What a pass leaves behind. -/
structure Outcome (S V : Type) where
  mem : S → V
  dirty : S → Bool
  next : List S
  finished : List S
  writes : List (S × V)

/-- A pass over some buckets: at its end the workers hand in what they queued, in the order
`joins`. -/
def pass (nthreads : Nat) (sched : Nat → List Nat) (joins : List Nat) (buckets : List (List S))
    (mem : S → V) (dirty : S → Bool) : Option (Outcome S V) :=
  (sw.runBuckets sched 0 buckets
    ⟨mem, dirty, [], List.replicate nthreads (.waiting []), [], []⟩).bind fun σ =>
      if joins.isPerm (List.range nthreads) then
        some ⟨σ.mem, σ.dirty, (joins.filterMap (σ.workers[·]?)).flatMap Worker.out, σ.finished,
          σ.writes⟩
      else none

end Sweep

/-- What an evaluation and its announcements have to be for flags to lead to a field of
values that agree with their evaluation. `dom` are the items, `reads` whose values an
evaluation may load, and `F` what it computes. -/
structure Sweep.Lawful (sw : Sweep S V) (dom : S → Prop) (reads : S → S → Prop)
    (F : (S → V) → S → V) [DecidableEq V] : Prop where
  loads : ∀ s, dom s → (sw.update s).LoadsFrom {t | t = s ∨ reads s t}
  result : ∀ m s, dom s →
    (sw.update s).peek m = if F m s = m s then none else some (F m s)
  reads_only : ∀ m m' s, dom s → (∀ t, reads s t → m t = m' t) → F m s = F m' s
  preds_dom : ∀ s, dom s → ∀ q ∈ sw.preds s, dom q
  announced : ∀ s t, dom s → dom t → reads s t → s ∈ sw.preds t

namespace Machine

/-- Whose flag is up, by who holds it: later buckets, the queue, claims and queued items. -/
def flagged (σ : Machine S V) (later : List S) : List S :=
  later ++ σ.queue ++ σ.workers.flatMap fun w => w.rest ++ w.out

/-- The items of a pass, by how far they got. -/
def items (σ : Machine S V) (later : List S) : List S :=
  σ.finished ++ later ++ σ.queue ++ σ.workers.flatMap fun w => w.current ++ w.rest

/-- Flagged, or about to be. -/
def Owed (σ : Machine S V) (s : S) : Prop :=
  σ.dirty s = true ∨ s ∈ σ.workers.flatMap Worker.todo

end Machine

/-- What a worker knows: its evaluation will yield the value under the present memory,
unless its item will be evaluated again. -/
def Worker.Fresh (sw : Sweep S V) (dom : S → Prop) (reads : S → S → Prop) (σ : Machine S V) :
    Worker S V → Prop
  | evaluating _ s p _ => dom s ∧ p.LoadsFrom {t | t = s ∨ reads s t} ∧
      (σ.Owed s ∨ p.peek σ.mem = (sw.update s).peek σ.mem)
  | announcing _ todo _ => ∀ q ∈ todo, dom q
  | _ => True

/-- The invariant of a pass over `order`, with the buckets `later` to come. -/
structure Inv [DecidableEq S] (sw : Sweep S V) (dom : S → Prop) (reads : S → S → Prop)
    (F : (S → V) → S → V) (order later : List S) (σ : Machine S V) : Prop where
  flags : ∀ s, (σ.flagged later).count s = (σ.dirty s).toNat
  accounted : ∀ s, (σ.items later).count s = order.count s
  legal : ∀ s ∈ σ.flagged later, dom s
  fresh : ∀ w ∈ σ.workers, w.Fresh sw dom reads σ
  covered : ∀ s, dom s → F σ.mem s = σ.mem s ∨ σ.Owed s ∨ s ∈ σ.workers.flatMap Worker.current
  barrier : ∀ w ∈ σ.workers, w.isWaiting = true → σ.queue = []

theorem loadsFrom_mono {L α : Type} {A B : Set L} {p : Prog L V α} (hp : p.LoadsFrom A)
    (h : ∀ i ∈ A, i ∈ B) : p.LoadsFrom B := by
  induction p with
  | ret a => trivial
  | load i k ih => exact ⟨h i hp.1, fun v => ih v (hp.2 v)⟩
  | store i v k ih => exact hp.elim

theorem peek_congr {L α : Type} {A : Set L} {m m' : L → V} {p : Prog L V α} (hp : p.LoadsFrom A)
    (h : ∀ i ∈ A, m i = m' i) : p.peek m = p.peek m' := by
  induction p with
  | ret a => rfl
  | load i k ih =>
    rw [Prog.peek_load, Prog.peek_load, h i hp.1]
    exact ih _ (hp.2 _)
  | store i v k ih => exact hp.elim

theorem split_at {α : Type} {ws : List α} {n : Nat} {w : α} (h : ws[n]? = some w) :
    ∃ pre post, ws = pre ++ w :: post ∧ ∀ w', ws.set n w' = pre ++ w' :: post := by
  obtain ⟨hn, hw⟩ := List.getElem?_eq_some_iff.mp h
  refine ⟨ws.take n, ws.drop (n + 1), ?_, ?_⟩
  · rw [← hw, List.getElem_cons_drop, List.take_append_drop]
  · intro w'
    rw [List.set_eq_take_append_cons_drop, if_pos hn]

section Steps

variable [DecidableEq S] [DecidableEq V] {sw : Sweep S V} {dom : S → Prop} {reads : S → S → Prop}
  {F : (S → V) → S → V} {order later : List S} {σ : Machine S V} {pre post : List (Worker S V)}
  {out rest : List S} {s : S}

omit [DecidableEq S] [DecidableEq V] in
/-- What a worker knows outlasts a step that moves no value and takes no flag of its down. -/
theorem Worker.Fresh.of_owed {σ' : Machine S V} {w : Worker S V} (h : w.Fresh sw dom reads σ)
    (howed : ∀ t ∈ w.current, σ.Owed t → σ'.Owed t) (hmem : σ'.mem = σ.mem) :
    w.Fresh sw dom reads σ' := by
  cases w with
  | evaluating o t p r =>
    refine ⟨h.1, h.2.1, ?_⟩
    rw [hmem]
    exact h.2.2.imp_left (howed t List.mem_cons_self)
  | announcing o td r => exact h
  | between o r => trivial
  | waiting o => trivial

omit [DecidableEq S] [DecidableEq V] in
theorem forall_replaced {P Q : Worker S V → Prop} {w w' : Worker S V}
    (h : ∀ u ∈ pre ++ w :: post, P u) (hother : ∀ u ∈ pre ++ post, P u → Q u) (hw' : Q w') :
    ∀ u ∈ pre ++ w' :: post, Q u := by
  intro u hu
  rcases List.mem_append.mp hu with hmem | hmem
  · exact hother u (List.mem_append_left _ hmem) (h u (List.mem_append_left _ hmem))
  · rcases List.mem_cons.mp hmem with rfl | hmem
    · exact hw'
    · exact hother u (List.mem_append_right _ hmem)
        (h u (List.mem_append_right _ (List.mem_cons_of_mem _ hmem)))

omit [DecidableEq V] in
/-- A worker that neither begins nor ends an evaluation nor tells anybody. -/
theorem Inv.replace {w w' : Worker S V} {queue : List S} (h : Inv sw dom reads F order later σ)
    (hw : σ.workers = pre ++ w :: post) (hqueue : (queue ++ w'.rest).Perm (σ.queue ++ w.rest))
    (hout : w'.out = w.out) (hcurrent : w'.current = w.current) (htodo : w'.todo = w.todo)
    (hfresh : w.Fresh sw dom reads σ → w'.Fresh sw dom reads σ)
    (hbarrier : ∀ u ∈ pre ++ w' :: post, u.isWaiting = true → queue = []) :
    Inv sw dom reads F order later { σ with queue := queue, workers := pre ++ w' :: post } := by
  have hcount : ∀ t, queue.count t + w'.rest.count t = σ.queue.count t + w.rest.count t := by
    intro t
    rw [← List.count_append, hqueue.count_eq, List.count_append]
  have howed : ∀ t, Machine.Owed { σ with queue := queue, workers := pre ++ w' :: post } t ↔
      σ.Owed t := by
    intro t
    simp only [Machine.Owed, hw, List.flatMap_append, List.flatMap_cons, htodo]
  have hflags : ∀ t, (Machine.flagged { σ with queue := queue, workers := pre ++ w' :: post }
      later).count t = (σ.flagged later).count t := by
    intro t
    have := hcount t
    simp only [Machine.flagged, hw, List.flatMap_append, List.flatMap_cons, List.count_append, hout]
    omega
  have hlift : ∀ u : Worker S V, u.Fresh sw dom reads σ →
      u.Fresh sw dom reads { σ with queue := queue, workers := pre ++ w' :: post } :=
    fun _ hu => hu.of_owed (fun t _ => (howed t).mpr) rfl
  have hall := h.fresh
  rw [hw] at hall
  refine ⟨?_, ?_, ?_, ?_, ?_, hbarrier⟩
  · exact fun t => (hflags t).trans (h.flags t)
  · intro t
    rw [← h.accounted t]
    have := hcount t
    simp only [Machine.items, hw, List.flatMap_append, List.flatMap_cons, List.count_append,
      hcurrent]
    omega
  · intro t ht
    apply h.legal
    rw [← List.count_pos_iff] at ht ⊢
    rwa [hflags] at ht
  · exact forall_replaced hall (fun u _ hu => hlift u hu)
      (hlift w' (hfresh (hall w (List.mem_append_right _ List.mem_cons_self))))
  · intro t ht
    have hcov := h.covered t ht
    simp only [hw, List.flatMap_append, List.flatMap_cons] at hcov
    rw [howed]
    simp only [List.flatMap_append, List.flatMap_cons, hcurrent]
    exact hcov

omit [DecidableEq V] in
/-- An item under evaluation is nobody else's. -/
theorem Inv.sole {w u : Worker S V} (h : Inv sw dom reads F order later σ) (hnodup : order.Nodup)
    (hw : σ.workers = pre ++ w :: post) (hu : u ∈ pre ++ post) {t : S}
    (ht : t ∈ u.current) : t ∉ w.current ∧ t ∉ w.rest := by
  have hone := List.nodup_iff_count_le_one.mp hnodup t
  rw [← h.accounted t] at hone
  have hpos : 0 < (List.flatMap (fun w : Worker S V => w.current ++ w.rest)
      (pre ++ post)).count t := by
    apply List.count_pos_iff.mpr
    exact List.mem_flatMap.mpr ⟨u, hu, List.mem_append_left _ ht⟩
  simp only [List.flatMap_append, List.count_append] at hpos
  simp only [Machine.items, hw, List.flatMap_append, List.flatMap_cons, List.count_append] at hone
  constructor
  · intro hc
    have := List.count_pos_iff.mpr hc
    omega
  · intro hc
    have := List.count_pos_iff.mpr hc
    omega

/-- A worker begins its next item. -/
theorem Inv.clear (law : sw.Lawful dom reads F) (hnodup : order.Nodup)
    (h : Inv sw dom reads F order later σ)
    (hw : σ.workers = pre ++ .between out (s :: rest) :: post) :
    Inv sw dom reads F order later
      { σ with
        dirty := Function.update σ.dirty s false
        workers := pre ++ .evaluating out s (sw.update s) rest :: post } := by
  have hall := h.fresh
  have hbar := h.barrier
  rw [hw] at hall hbar
  have hmem : s ∈ σ.flagged later := by
    simp only [Machine.flagged, hw, List.flatMap_append, List.flatMap_cons, List.mem_append]
    exact Or.inr (Or.inr (Or.inl (Or.inl List.mem_cons_self)))
  have hs := h.legal s hmem
  have hkeep : ∀ t ≠ s, σ.Owed t → Machine.Owed
      { σ with
        dirty := Function.update σ.dirty s false
        workers := pre ++ .evaluating out s (sw.update s) rest :: post } t := by
    intro t hne howed
    simp only [Machine.Owed, Function.update_of_ne hne]
    simpa only [Machine.Owed, hw, List.flatMap_append, List.flatMap_cons, Worker.todo] using howed
  refine ⟨?_, ?_, ?_, ?_, ?_, ?_⟩
  · intro t
    have ht := h.flags t
    simp only [Machine.flagged, hw, List.flatMap_append, List.flatMap_cons, List.count_append,
      Worker.rest, Worker.out, List.count_cons] at ht ⊢
    by_cases hts : t = s
    · subst hts
      have hle := Bool.toNat_le (σ.dirty t)
      rw [Function.update_self, Bool.toNat_false]
      rw [if_pos (beq_self_eq_true t)] at ht
      omega
    · rw [Function.update_of_ne hts]
      rw [if_neg (by simpa using Ne.symm hts)] at ht
      omega
  · intro t
    rw [← h.accounted t]
    simp only [Machine.items, hw, List.flatMap_append, List.flatMap_cons, List.count_append,
      Worker.rest, Worker.current, List.count_cons, List.count_nil]
    omega
  · intro t ht
    apply h.legal
    simp only [Machine.flagged, hw, List.flatMap_append, List.flatMap_cons, List.mem_append,
      Worker.rest, Worker.out, List.mem_cons] at ht ⊢
    tauto
  · refine forall_replaced hall ?_ ⟨hs, law.loads s hs, Or.inr rfl⟩
    intro u hu hfresh
    refine hfresh.of_owed (fun t ht => hkeep t ?_) rfl
    rintro rfl
    exact (h.sole hnodup hw hu ht).2 List.mem_cons_self
  · intro t ht
    by_cases hts : t = s
    · right
      right
      simp [hts, Worker.current]
    · rcases h.covered t ht with hset | howed | hcur
      · exact Or.inl hset
      · exact Or.inr (Or.inl (hkeep t hts howed))
      · right
        right
        simp only [hw, List.flatMap_append, List.flatMap_cons, List.mem_append,
          Worker.current] at hcur ⊢
        tauto
  · exact forall_replaced hbar (fun _ _ hu => hu) fun hc => by cases hc

/-- An evaluation ends on the value its item has. -/
theorem Inv.unmoved (law : sw.Lawful dom reads F) (h : Inv sw dom reads F order later σ)
    (hw : σ.workers = pre ++ .evaluating out s (.ret none) rest :: post) :
    Inv sw dom reads F order later
      { σ with
        workers := pre ++ .between out rest :: post
        finished := σ.finished ++ [s] } := by
  have hall := h.fresh
  have hbar := h.barrier
  rw [hw] at hall hbar
  obtain ⟨hs, _, hval⟩ := hall _ (List.mem_append_right _ List.mem_cons_self)
  have hkeep : ∀ t, σ.Owed t → Machine.Owed
      { σ with
        workers := pre ++ .between out rest :: post
        finished := σ.finished ++ [s] } t := by
    intro t howed
    simpa only [Machine.Owed, hw, List.flatMap_append, List.flatMap_cons, Worker.todo] using howed
  refine ⟨?_, ?_, ?_, ?_, ?_, ?_⟩
  · intro t
    rw [← h.flags t]
    simp only [Machine.flagged, hw, List.flatMap_append, List.flatMap_cons, Worker.rest, Worker.out]
  · intro t
    rw [← h.accounted t]
    simp only [Machine.items, hw, List.flatMap_append, List.flatMap_cons, List.count_append,
      Worker.rest, Worker.current, List.count_nil]
    omega
  · intro t ht
    apply h.legal
    simpa only [Machine.flagged, hw, List.flatMap_append, List.flatMap_cons, Worker.rest,
      Worker.out] using ht
  · exact forall_replaced hall (fun u _ hu => hu.of_owed (fun t _ => hkeep t) rfl) trivial
  · intro t ht
    rcases h.covered t ht with hset | howed | hcur
    · exact Or.inl hset
    · exact Or.inr (Or.inl (hkeep t howed))
    · by_cases hts : t = s
      · subst hts
        rcases hval with howed | hpeek
        · exact Or.inr (Or.inl (hkeep t howed))
        · left
          rw [law.result _ _ hs, Prog.peek_ret] at hpeek
          by_contra hne
          rw [if_neg hne] at hpeek
          cases hpeek
      · right
        right
        simp only [hw, List.flatMap_append, List.flatMap_cons, List.mem_append, Worker.current,
          List.mem_singleton, List.not_mem_nil] at hcur ⊢
        tauto
  · exact forall_replaced hbar (fun _ _ hu => hu) fun hc => by cases hc

/-- An evaluation ends on another value, which is stored. -/
theorem Inv.moved (law : sw.Lawful dom reads F) (hnodup : order.Nodup)
    (h : Inv sw dom reads F order later σ) {v : V} {writes : List (S × V)}
    (hw : σ.workers = pre ++ .evaluating out s (.ret (some v)) rest :: post) :
    Inv sw dom reads F order later
      { σ with
        mem := Function.update σ.mem s v
        workers := pre ++ .announcing out (sw.preds s) rest :: post
        finished := σ.finished ++ [s]
        writes := writes } := by
  have hall := h.fresh
  have hbar := h.barrier
  rw [hw] at hall hbar
  obtain ⟨hs, _, hval⟩ := hall _ (List.mem_append_right _ List.mem_cons_self)
  have hkeep : ∀ t, σ.Owed t ∨ dom t ∧ reads t s → Machine.Owed
      { σ with
        mem := Function.update σ.mem s v
        workers := pre ++ .announcing out (sw.preds s) rest :: post
        finished := σ.finished ++ [s]
        writes := writes } t := by
    intro t howed
    simp only [Machine.Owed, hw, List.flatMap_append, List.flatMap_cons, Worker.todo,
      List.mem_append] at howed ⊢
    rcases howed with (hd | hpre | hnil | hpost) | ⟨ht, hr⟩
    · exact Or.inl hd
    · exact Or.inr (Or.inl hpre)
    · cases hnil
    · exact Or.inr (Or.inr (Or.inr hpost))
    · exact Or.inr (Or.inr (Or.inl (law.announced t s ht hs hr)))
  refine ⟨?_, ?_, ?_, ?_, ?_, ?_⟩
  · intro t
    rw [← h.flags t]
    simp only [Machine.flagged, hw, List.flatMap_append, List.flatMap_cons, Worker.rest, Worker.out]
  · intro t
    rw [← h.accounted t]
    simp only [Machine.items, hw, List.flatMap_append, List.flatMap_cons, List.count_append,
      Worker.rest, Worker.current, List.count_nil]
    omega
  · intro t ht
    apply h.legal
    simpa only [Machine.flagged, hw, List.flatMap_append, List.flatMap_cons, Worker.rest,
      Worker.out] using ht
  · refine forall_replaced hall ?_ (law.preds_dom s hs)
    intro u hu hfresh
    cases u with
    | evaluating o t p r =>
      obtain ⟨ht, hloads, hpeek⟩ := hfresh
      refine ⟨ht, hloads, ?_⟩
      by_cases hr : reads t s
      · exact Or.inl (hkeep t (Or.inr ⟨ht, hr⟩))
      · refine hpeek.imp (fun ho => hkeep t (Or.inl ho)) fun hp => ?_
        have hne : t ≠ s := by
          rintro rfl
          exact (h.sole hnodup hw hu List.mem_cons_self).1 List.mem_cons_self
        have hsame : ∀ i ∈ {i | i = t ∨ reads t i}, Function.update σ.mem s v i = σ.mem i := by
          rintro i hi
          apply Function.update_of_ne
          rintro rfl
          exact hi.elim (fun hit => hne hit.symm) hr
        rw [peek_congr hloads hsame, peek_congr (law.loads t ht) hsame]
        exact hp
    | announcing o td r => exact hfresh
    | between o r => trivial
    | waiting o => trivial
  · intro t ht
    by_cases hr : reads t s
    · exact Or.inr (Or.inl (hkeep t (Or.inr ⟨ht, hr⟩)))
    have hsame : F (Function.update σ.mem s v) t = F σ.mem t := by
      apply law.reads_only _ _ t ht
      intro i hi
      apply Function.update_of_ne
      rintro rfl
      exact hr hi
    by_cases hts : t = s
    · subst hts
      rcases hval with howed | hpeek
      · exact Or.inr (Or.inl (hkeep t (Or.inl howed)))
      · left
        rw [law.result _ _ hs, Prog.peek_ret] at hpeek
        split at hpeek
        · cases hpeek
        · refine hsame.trans ((Option.some.inj hpeek).symm.trans ?_)
          exact (Function.update_self t v σ.mem).symm
    · rcases h.covered t ht with hset | howed | hcur
      · left
        exact (hsame.trans hset).trans (Function.update_of_ne hts ..).symm
      · exact Or.inr (Or.inl (hkeep t (Or.inl howed)))
      · right
        right
        simp only [hw, List.flatMap_append, List.flatMap_cons, List.mem_append, Worker.current,
          List.mem_singleton, List.not_mem_nil] at hcur ⊢
        tauto
  · exact forall_replaced hbar (fun _ _ hu => hu) fun hc => by cases hc

omit [DecidableEq V] in
/-- A reader of a moved item is told; whoever tells it first queues it. -/
theorem Inv.announce (h : Inv sw dom reads F order later σ) {q : S} {todo : List S}
    (hw : σ.workers = pre ++ .announcing out (q :: todo) rest :: post) :
    Inv sw dom reads F order later
      { σ with
        dirty := Function.update σ.dirty q true
        workers := pre ++
          .announcing (if σ.dirty q then out else out ++ [q]) todo rest :: post } := by
  have hall := h.fresh
  have hbar := h.barrier
  rw [hw] at hall hbar
  have hdom : ∀ q' ∈ q :: todo, dom q' := hall _ (List.mem_append_right _ List.mem_cons_self)
  have hkeep : ∀ t, σ.Owed t → Machine.Owed
      { σ with
        dirty := Function.update σ.dirty q true
        workers := pre ++
          .announcing (if σ.dirty q then out else out ++ [q]) todo rest :: post } t := by
    intro t howed
    by_cases htq : t = q
    · left
      rw [htq]
      exact Function.update_self ..
    · simp only [Machine.Owed, hw, List.flatMap_append, List.flatMap_cons, Worker.todo,
        List.mem_append, List.mem_cons, Function.update_of_ne htq] at howed ⊢
      tauto
  have hout : ∀ t, (if σ.dirty q then out else out ++ [q]).count t =
      out.count t + if t = q ∧ σ.dirty q = false then 1 else 0 := by
    intro t
    cases hd : σ.dirty q
    · rw [if_neg Bool.false_ne_true, List.count_append, List.count_singleton]
      by_cases htq : t = q
      · rw [if_pos (beq_iff_eq.mpr htq.symm), if_pos ⟨htq, rfl⟩]
      · rw [if_neg fun hc => htq (beq_iff_eq.mp hc).symm, if_neg fun hc => htq hc.1]
    · rw [if_pos rfl, if_neg fun hc => Bool.noConfusion hc.2, Nat.add_zero]
  refine ⟨?_, ?_, ?_, ?_, ?_, ?_⟩
  · intro t
    have ht := h.flags t
    simp only [Machine.flagged, hw, List.flatMap_append, List.flatMap_cons, List.count_append,
      Worker.rest, Worker.out] at ht ⊢
    rw [hout]
    by_cases htq : t = q
    · subst htq
      rw [Function.update_self, Bool.toNat_true]
      cases hd : σ.dirty t with
      | false =>
        rw [hd, Bool.toNat_false] at ht
        rw [if_pos ⟨rfl, rfl⟩]
        omega
      | true =>
        rw [hd, Bool.toNat_true] at ht
        rw [if_neg (by simp)]
        omega
    · rw [Function.update_of_ne htq, if_neg fun hc => htq hc.1]
      omega
  · intro t
    rw [← h.accounted t]
    simp only [Machine.items, hw, List.flatMap_append, List.flatMap_cons, Worker.rest,
      Worker.current]
  · intro t ht
    by_cases htq : t = q
    · rw [htq]
      exact hdom q List.mem_cons_self
    · apply h.legal
      rw [← List.count_pos_iff] at ht ⊢
      simp only [Machine.flagged, hw, List.flatMap_append, List.flatMap_cons, List.count_append,
        Worker.rest, Worker.out] at ht ⊢
      rw [hout, if_neg fun hc => htq hc.1] at ht
      omega
  · exact forall_replaced hall (fun u _ hu => hu.of_owed (fun t _ => hkeep t) rfl)
      fun q' hq' => hdom q' (List.mem_cons_of_mem _ hq')
  · intro t ht
    rcases h.covered t ht with hset | howed | hcur
    · exact Or.inl hset
    · exact Or.inr (Or.inl (hkeep t howed))
    · right
      right
      simpa only [hw, List.flatMap_append, List.flatMap_cons, Worker.current] using hcur
  · exact forall_replaced hbar (fun _ _ hu => hu) fun hc => by cases hc

/-- What one step of a worker can do. -/
inductive Stepped (sw : Sweep S V) (σ : Machine S V) : Machine S V → Prop where
  | idle : Stepped sw σ σ
  | park {pre post : List (Worker S V)} {out : List S}
      (hw : σ.workers = pre ++ .between out [] :: post) (hqueue : σ.queue = []) :
      Stepped sw σ { σ with workers := pre ++ .waiting out :: post }
  | claim {pre post : List (Worker S V)} {out : List S}
      (hw : σ.workers = pre ++ .between out [] :: post) :
      Stepped sw σ
        { σ with
          queue := σ.queue.drop sw.block
          workers := pre ++ .between out (σ.queue.take sw.block) :: post }
  | clear {pre post : List (Worker S V)} {out rest : List S} {s : S}
      (hw : σ.workers = pre ++ .between out (s :: rest) :: post) :
      Stepped sw σ
        { σ with
          dirty := Function.update σ.dirty s false
          workers := pre ++ .evaluating out s (sw.update s) rest :: post }
  | load {pre post : List (Worker S V)} {out rest : List S} {s j : S}
      {k : V → Prog S V (Option V)}
      (hw : σ.workers = pre ++ .evaluating out s (.load j k) rest :: post) :
      Stepped sw σ { σ with workers := pre ++ .evaluating out s (k (σ.mem j)) rest :: post }
  | store {pre post : List (Worker S V)} {out rest : List S} {s j : S} {v : V}
      {k : Prog S V (Option V)}
      (hw : σ.workers = pre ++ .evaluating out s (.store j v k) rest :: post) :
      Stepped sw σ
        { σ with
          mem := Function.update σ.mem j v
          workers := pre ++ .evaluating out s k rest :: post }
  | unmoved {pre post : List (Worker S V)} {out rest : List S} {s : S}
      (hw : σ.workers = pre ++ .evaluating out s (.ret none) rest :: post) :
      Stepped sw σ
        { σ with
          workers := pre ++ .between out rest :: post
          finished := σ.finished ++ [s] }
  | moved {pre post : List (Worker S V)} {out rest : List S} {s : S} {v : V}
      (hw : σ.workers = pre ++ .evaluating out s (.ret (some v)) rest :: post) :
      Stepped sw σ
        { σ with
          mem := Function.update σ.mem s v
          workers := pre ++ .announcing out (sw.preds s) rest :: post
          finished := σ.finished ++ [s]
          writes := σ.writes ++ [(s, v)] }
  | told {pre post : List (Worker S V)} {out rest : List S}
      (hw : σ.workers = pre ++ .announcing out [] rest :: post) :
      Stepped sw σ { σ with workers := pre ++ .between out rest :: post }
  | announce {pre post : List (Worker S V)} {out rest todo : List S} {q : S}
      (hw : σ.workers = pre ++ .announcing out (q :: todo) rest :: post) :
      Stepped sw σ
        { σ with
          dirty := Function.update σ.dirty q true
          workers := pre ++
            .announcing (if σ.dirty q then out else out ++ [q]) todo rest :: post }

omit [DecidableEq V] in
theorem step_cases (sw : Sweep S V) (σ : Machine S V) (i : Nat) : Stepped sw σ (sw.step σ i) := by
  unfold Sweep.step
  cases hi : σ.workers[i]? with
  | none => exact .idle
  | some w =>
    obtain ⟨pre, post, hw, hset⟩ := split_at hi
    cases w with
    | waiting out => exact .idle
    | between out rest =>
      cases rest with
      | nil =>
        simp only [hset]
        split
        · next hempty => exact .park hw (List.isEmpty_iff.mp hempty)
        · exact .claim hw
      | cons s rest =>
        simp only [hset]
        exact .clear hw
    | evaluating out s p rest =>
      cases p with
      | load j k =>
        simp only [hset]
        exact .load hw
      | store j v k =>
        simp only [hset]
        exact .store hw
      | ret r =>
        cases r with
        | none =>
          simp only [hset]
          exact .unmoved hw
        | some v =>
          simp only [hset]
          exact .moved hw
    | announcing out todo rest =>
      cases todo with
      | nil =>
        simp only [hset]
        exact .told hw
      | cons q todo =>
        simp only [hset]
        exact .announce hw

/-- Step lemma. -/
theorem Inv.step (law : sw.Lawful dom reads F) (hnodup : order.Nodup)
    (h : Inv sw dom reads F order later σ) (i : Nat) :
    Inv sw dom reads F order later (sw.step σ i) := by
  have hbar := h.barrier
  have hstep := step_cases sw σ i
  generalize sw.step σ i = σ' at hstep
  cases hstep with
  | idle => exact h
  | park hw hqueue =>
    rw [hw] at hbar
    exact h.replace hw (List.Perm.refl _) rfl rfl rfl (fun _ => trivial) fun _ _ _ => hqueue
  | claim hw =>
    rw [hw] at hbar
    refine h.replace hw ?_ rfl rfl rfl (fun _ => trivial) ?_
    · have hsplit : (σ.queue.take sw.block ++ σ.queue.drop sw.block).Perm (σ.queue ++ []) := by
        rw [List.take_append_drop, List.append_nil]
      exact List.perm_append_comm.trans hsplit
    · refine forall_replaced hbar ?_ fun hc => by cases hc
      intro u _ hu hwait
      rw [hu hwait, List.drop_nil]
  | clear hw => exact h.clear law hnodup hw
  | load hw =>
    rw [hw] at hbar
    refine h.replace hw (List.Perm.refl _) rfl rfl rfl ?_
      (forall_replaced hbar (fun _ _ hu => hu) fun hc => by cases hc)
    rintro ⟨hs, hloads, hval⟩
    exact ⟨hs, hloads.2 _, hval⟩
  | store hw =>
    have hall := h.fresh
    rw [hw] at hall
    exact (hall _ (List.mem_append_right _ List.mem_cons_self)).2.1.elim
  | unmoved hw => exact h.unmoved law hw
  | moved hw => exact h.moved law hnodup hw
  | told hw =>
    rw [hw] at hbar
    exact h.replace hw (List.Perm.refl _) rfl rfl rfl (fun _ => trivial)
      (forall_replaced hbar (fun _ _ hu => hu) fun hc => by cases hc)
  | announce hw => exact h.announce hw

end Steps

section Bounds

variable [DecidableEq S] {sw : Sweep S V} {dom : S → Prop} {reads : S → S → Prop}
  {F : (S → V) → S → V} {order later : List S} {σ : Machine S V} {fin : S → V}
  {P Good Allowed : S → V → Prop}

/-- An evaluation that reads values with `P` ends on one that is `Good`. -/
def Worker.Keeps (fin : S → V) (P Good : S → V → Prop) : Worker S V → Prop
  | evaluating _ s p _ => p.Keeps fin P fun r => ∀ v, r = some v → Good s v
  | _ => True

/-- All values have `P`, and so will those under evaluation if they are allowed. -/
structure Bounded (fin : S → V) (P Good : S → V → Prop) (σ : Machine S V) : Prop where
  mem : ∀ i, P i (σ.mem i)
  workers : ∀ w ∈ σ.workers, w.Keeps fin P Good
  written : ∀ w ∈ σ.writes, P w.1 w.2

theorem writes_step (i : Nat) : σ.writes ⊆ (sw.step σ i).writes := by
  have hstep := step_cases sw σ i
  generalize sw.step σ i = σ' at hstep
  cases hstep with
  | moved hw => exact List.subset_append_left _ _
  | _ => exact List.Subset.refl _

/-- Step lemma for the bounds. -/
theorem Bounded.step
    (hupdate : ∀ s, dom s → (sw.update s).Keeps fin P fun r => ∀ v, r = some v → Good s v)
    (hgood : ∀ s v, Good s v → Allowed s v → P s v) (h : Inv sw dom reads F order later σ)
    (hb : Bounded fin P Good σ) (i : Nat)
    (hallow : ∀ w ∈ (sw.step σ i).writes, Allowed w.1 w.2) :
    Bounded fin P Good (sw.step σ i) := by
  have hall := hb.workers
  have hstep := step_cases sw σ i
  generalize sw.step σ i = σ' at hstep hallow
  have hother : ∀ {pre post : List (Worker S V)} {w w' : Worker S V},
      σ.workers = pre ++ w :: post → w'.Keeps fin P Good →
      ∀ u ∈ pre ++ w' :: post, u.Keeps fin P Good := by
    intro pre post w w' hw hw'
    rw [hw] at hall
    exact forall_replaced hall (fun _ _ hu => hu) hw'
  have hheld : ∀ {pre post : List (Worker S V)} {w : Worker S V},
      σ.workers = pre ++ w :: post → w.Keeps fin P Good := by
    intro pre post w hw
    exact hall w (by rw [hw]; exact List.mem_append_right _ List.mem_cons_self)
  cases hstep with
  | idle => exact hb
  | park hw => exact ⟨hb.mem, hother hw trivial, hb.written⟩
  | claim hw => exact ⟨hb.mem, hother hw trivial, hb.written⟩
  | @clear pre post out rest s hw =>
    refine ⟨hb.mem, hother hw (hupdate s (h.legal s ?_)), hb.written⟩
    simp only [Machine.flagged, hw, List.flatMap_append, List.flatMap_cons, List.mem_append]
    exact Or.inr (Or.inr (Or.inl (Or.inl List.mem_cons_self)))
  | load hw => exact ⟨hb.mem, hother hw (hheld hw _ (hb.mem _)), hb.written⟩
  | store hw =>
    have hfresh := h.fresh
    rw [hw] at hfresh
    exact (hfresh _ (List.mem_append_right _ List.mem_cons_self)).2.1.elim
  | unmoved hw => exact ⟨hb.mem, hother hw trivial, hb.written⟩
  | @moved pre post out rest s v hw =>
    have hnew : P s v :=
      hgood s v (hheld hw v rfl) (hallow (s, v) (List.mem_append_right _ List.mem_cons_self))
    refine ⟨?_, hother hw trivial, ?_⟩
    · intro j
      by_cases hj : j = s
      · subst hj
        simp only [Function.update_self]
        exact hnew
      · simp only [Function.update_of_ne hj]
        exact hb.mem j
    · intro w hw
      rcases List.mem_append.mp hw with hw | hw
      · exact hb.written w hw
      · obtain rfl := List.mem_singleton.mp hw
        exact hnew
  | told hw => exact ⟨hb.mem, hother hw trivial, hb.written⟩
  | announce hw => exact ⟨hb.mem, hother hw trivial, hb.written⟩

end Bounds

section Runs

variable [DecidableEq S] {sw : Sweep S V}

theorem length_step (σ : Machine S V) (i : Nat) :
    (sw.step σ i).workers.length = σ.workers.length := by
  have hstep := step_cases sw σ i
  generalize sw.step σ i = σ' at hstep
  cases hstep with
  | idle => rfl
  | park hw => simp only [hw, List.length_append, List.length_cons]
  | claim hw => simp only [hw, List.length_append, List.length_cons]
  | clear hw => simp only [hw, List.length_append, List.length_cons]
  | load hw => simp only [hw, List.length_append, List.length_cons]
  | store hw => simp only [hw, List.length_append, List.length_cons]
  | unmoved hw => simp only [hw, List.length_append, List.length_cons]
  | moved hw => simp only [hw, List.length_append, List.length_cons]
  | told hw => simp only [hw, List.length_append, List.length_cons]
  | announce hw => simp only [hw, List.length_append, List.length_cons]

/-- What steps and barriers keep holds after the buckets. -/
theorem runBuckets_induct {Q : List S → Machine S V → Prop} {sched : Nat → List Nat}
    (hstep : ∀ later σ i, Q later σ → Q later (sw.step σ i))
    (henter : ∀ bucket later σ, (∀ w ∈ σ.workers, w.isWaiting = true) → Q (bucket ++ later) σ →
      Q later (Sweep.enter σ bucket)) (buckets : List (List S)) :
    ∀ {n : Nat} {σ σ' : Machine S V}, (∀ w ∈ σ.workers, w.isWaiting = true) →
      Q buckets.flatten σ → sw.runBuckets sched n buckets σ = some σ' →
      Q [] σ' ∧ ∀ w ∈ σ'.workers, w.isWaiting = true := by
  induction buckets with
  | nil =>
    rintro n σ σ' hwait h hrun
    cases hrun
    exact ⟨h, hwait⟩
  | cons bucket buckets ih =>
    intro n σ σ' hwait h hrun
    have hsteps : ∀ (is : List Nat) (τ : Machine S V), Q buckets.flatten τ →
        Q buckets.flatten (is.foldl sw.step τ) := by
      intro is
      induction is with
      | nil => exact fun _ hτ => hτ
      | cons i is ihs => exact fun τ hτ => ihs _ (hstep _ _ i hτ)
    unfold Sweep.runBuckets at hrun
    simp only at hrun
    split at hrun
    · next hall =>
      exact ih (List.all_eq_true.mp hall) (hsteps _ _ (henter bucket _ σ hwait h)) hrun
    · cases hrun

theorem filterMap_range {α : Type} (l : List α) :
    (List.range l.length).filterMap (l[·]?) = l := by
  induction l with
  | nil => rfl
  | cons a l ih =>
    rw [List.length_cons, List.range_succ_eq_map, List.filterMap_cons, List.filterMap_map]
    exact congrArg (a :: ·) ih

end Runs

section Pass

variable [DecidableEq S] [DecidableEq V] {sw : Sweep S V} {dom : S → Prop} {reads : S → S → Prop}
  {F : (S → V) → S → V} {order later : List S} {fin : S → V} {P Good Allowed : S → V → Prop}

omit [DecidableEq V] in
/-- Past the barrier the next bucket is the queue. -/
theorem Inv.enter {σ : Machine S V} {bucket : List S}
    (h : Inv sw dom reads F order (bucket ++ later) σ) (hqueue : σ.queue = []) :
    Inv sw dom reads F order later (Sweep.enter σ bucket) := by
  have hrest : ∀ w : Worker S V, w.release.rest = w.rest := fun w => by cases w <;> rfl
  have hout : ∀ w : Worker S V, w.release.out = w.out := fun w => by cases w <;> rfl
  have hcurrent : ∀ w : Worker S V, w.release.current = w.current := fun w => by cases w <;> rfl
  have htodo : ∀ w : Worker S V, w.release.todo = w.todo := fun w => by cases w <;> rfl
  have howed : ∀ t, (Sweep.enter σ bucket).Owed t ↔ σ.Owed t := by
    intro t
    simp only [Machine.Owed, Sweep.enter, List.flatMap_map, htodo]
  have hflags : ∀ t, ((Sweep.enter σ bucket).flagged later).count t =
      (σ.flagged (bucket ++ later)).count t := by
    intro t
    simp only [Machine.flagged, Sweep.enter, hqueue, List.flatMap_map, hrest, hout,
      List.count_append, List.count_nil]
    omega
  refine ⟨?_, ?_, ?_, ?_, ?_, ?_⟩
  · exact fun t => (hflags t).trans (h.flags t)
  · intro t
    rw [← h.accounted t]
    simp only [Machine.items, Sweep.enter, hqueue, List.flatMap_map, hrest, hcurrent,
      List.count_append, List.count_nil]
    omega
  · intro t ht
    apply h.legal
    rw [← List.count_pos_iff] at ht ⊢
    rwa [hflags] at ht
  · intro w hw
    obtain ⟨u, hu, rfl⟩ := List.mem_map.mp hw
    have hfresh : u.Fresh sw dom reads (Sweep.enter σ bucket) :=
      (h.fresh u hu).of_owed (fun t _ => (howed t).mpr) rfl
    cases u with
    | waiting out => trivial
    | _ => exact hfresh
  · intro t ht
    rw [howed]
    simp only [Sweep.enter, List.flatMap_map, hcurrent]
    exact h.covered t ht
  · intro w hw hwait
    obtain ⟨u, _, rfl⟩ := List.mem_map.mp hw
    cases u <;> cases hwait

/-- Between passes: exactly the flagged items are queued, and whatever does not agree with
its evaluation is among them. -/
structure Ready (dom : S → Prop) (F : (S → V) → S → V) (mem : S → V) (dirty : S → Bool)
    (items : List S) : Prop where
  flags : ∀ s, items.count s = (dirty s).toNat
  legal : ∀ s ∈ items, dom s
  covered : ∀ s, dom s → F mem s = mem s ∨ s ∈ items

omit [DecidableEq V] in
theorem Ready.nodup {mem : S → V} {dirty : S → Bool} {items : List S}
    (h : Ready dom F mem dirty items) : items.Nodup := by
  apply List.nodup_iff_count_le_one.mpr
  intro s
  rw [h.flags]
  exact Bool.toNat_le _

omit [DecidableEq V] in
theorem Ready.of_perm {mem : S → V} {dirty : S → Bool} {items items' : List S}
    (h : Ready dom F mem dirty items) (hperm : items'.Perm items) :
    Ready dom F mem dirty items' where
  flags s := (hperm.count_eq s).trans (h.flags s)
  legal s hs := h.legal s (hperm.mem_iff.mp hs)
  covered s hs := (h.covered s hs).imp_right hperm.mem_iff.mpr

section Run

variable {nthreads : Nat} {sched : Nat → List Nat} {joins : List Nat} {buckets : List (List S)}
  {mem : S → V} {dirty : S → Bool} {r : Sweep.Outcome S V}

omit [DecidableEq V] in
/-- A pass begins with everything in its buckets. -/
theorem Ready.start (h : Ready dom F mem dirty buckets.flatten) :
    Inv sw dom reads F buckets.flatten buckets.flatten
      ⟨mem, dirty, [], List.replicate nthreads (.waiting []), [], []⟩ := by
  have hnone : ∀ f : Worker S V → List S, f (.waiting []) = [] →
      (List.replicate nthreads (Worker.waiting [] : Worker S V)).flatMap f = [] := by
    intro f hf
    apply List.flatMap_eq_nil_iff.mpr
    intro w hw
    rw [List.eq_of_mem_replicate hw, hf]
  have hflagged : (Machine.flagged ⟨mem, dirty, [], List.replicate nthreads (Worker.waiting []),
      [], []⟩ buckets.flatten : List S) = buckets.flatten := by
    simp only [Machine.flagged]
    rw [hnone _ rfl, List.append_nil, List.append_nil]
  refine ⟨?_, ?_, ?_, ?_, ?_, fun _ _ _ => rfl⟩
  · intro s
    rw [hflagged]
    exact h.flags s
  · intro s
    simp only [Machine.items]
    rw [hnone _ rfl, List.append_nil, List.append_nil, List.nil_append]
  · intro s hs
    rw [hflagged] at hs
    exact h.legal s hs
  · intro w hw
    rw [List.eq_of_mem_replicate hw]
    trivial
  · intro s hs
    refine (h.covered s hs).imp_right fun hmem => Or.inl (Or.inl ?_)
    have hcount := h.flags s
    cases hd : dirty s with
    | true => exact hd
    | false =>
      rw [hd, Bool.toNat_false] at hcount
      exact absurd hmem (List.count_eq_zero.mp hcount)

/-- Run lemma: the invariant and the bounds hold when the pass is over. -/
theorem pass_end (fin : S → V) (P Good Allowed : S → V → Prop) (law : sw.Lawful dom reads F)
    (hn : 0 < nthreads)
    (hready : Ready dom F mem dirty buckets.flatten)
    (hrun : sw.pass nthreads sched joins buckets mem dirty = some r) :
    ∃ σ : Machine S V, Inv sw dom reads F buckets.flatten [] σ ∧
      (∀ w ∈ σ.workers, w.isWaiting = true) ∧ σ.queue = [] ∧
      r.next.Perm (σ.workers.flatMap Worker.out) ∧
      r = ⟨σ.mem, σ.dirty, r.next, σ.finished, σ.writes⟩ ∧
      ((∀ s, dom s → (sw.update s).Keeps fin P fun r => ∀ v, r = some v → Good s v) →
        (∀ s v, Good s v → Allowed s v → P s v) → (∀ i, P i (mem i)) →
        (∀ w ∈ σ.writes, Allowed w.1 w.2) →
          (∀ i, P i (σ.mem i)) ∧ ∀ w ∈ σ.writes, P w.1 w.2) := by
  let Q : List S → Machine S V → Prop := fun later σ =>
    Inv sw dom reads F buckets.flatten later σ ∧ σ.workers.length = nthreads ∧
      ((∀ s, dom s → (sw.update s).Keeps fin P fun r => ∀ v, r = some v → Good s v) →
        (∀ s v, Good s v → Allowed s v → P s v) → (∀ i, P i (mem i)) →
        (∀ w ∈ σ.writes, Allowed w.1 w.2) → Bounded fin P Good σ)
  have hstep : ∀ later σ i, Q later σ → Q later (sw.step σ i) := by
    rintro later σ i ⟨h, hlen, hb⟩
    refine ⟨h.step law hready.nodup i, (length_step σ i).trans hlen, ?_⟩
    intro hupdate hgood hmem hallow
    exact (hb hupdate hgood hmem fun w hw => hallow w (writes_step i hw)).step hupdate hgood h i
      hallow
  have hempty : ∀ later σ, Q later σ → (∀ w ∈ σ.workers, w.isWaiting = true) → σ.queue = [] := by
    rintro later σ ⟨h, hlen, _⟩ hwait
    obtain ⟨w, hw⟩ := List.exists_mem_of_length_pos (show 0 < σ.workers.length by omega)
    exact h.barrier w hw (hwait w hw)
  have henter : ∀ bucket later σ, (∀ w ∈ σ.workers, w.isWaiting = true) → Q (bucket ++ later) σ →
      Q later (Sweep.enter σ bucket) := by
    rintro bucket later σ hwait ⟨h, hlen, hb⟩
    refine ⟨h.enter (hempty _ σ ⟨h, hlen, hb⟩ hwait), (List.length_map ..).trans hlen, ?_⟩
    intro hupdate hgood hmem hallow
    obtain ⟨hm, hw, hwritten⟩ := hb hupdate hgood hmem hallow
    refine ⟨hm, ?_, hwritten⟩
    intro w hw'
    obtain ⟨u, hu, rfl⟩ := List.mem_map.mp hw'
    have hkeeps := hw u hu
    cases u with
    | waiting out => trivial
    | _ => exact hkeeps
  obtain ⟨σ, hσ, hjoin⟩ := Option.bind_eq_some_iff.mp hrun
  have hstart : Q buckets.flatten ⟨mem, dirty, [], List.replicate nthreads (.waiting []), [], []⟩ := by
    refine ⟨hready.start, List.length_replicate .., fun _ _ hmem _ => ⟨hmem, ?_, fun _ hw => by cases hw⟩⟩
    intro w hw
    rw [List.eq_of_mem_replicate hw]
    trivial
  obtain ⟨hq, hwait⟩ := runBuckets_induct hstep henter buckets (fun w hw => by
    rw [List.eq_of_mem_replicate hw]
    rfl) hstart hσ
  have hqueue := hempty [] σ hq hwait
  obtain ⟨h, hlen, hb⟩ := hq
  split at hjoin
  · next hperm =>
    cases hjoin
    refine ⟨σ, h, hwait, hqueue, ?_, rfl, fun hupdate hgood hmem hallow =>
      have hbounds := hb hupdate hgood hmem hallow
      ⟨hbounds.mem, hbounds.written⟩⟩
    have hworkers := (List.isPerm_iff.mp hperm).filterMap (σ.workers[·]?)
    rw [← hlen, filterMap_range] at hworkers
    exact hworkers.flatMap_right _
  · cases hjoin

/-- A pass evaluates every item once and leaves everything ready for the next. -/
theorem pass_spec (law : sw.Lawful dom reads F) (hn : 0 < nthreads)
    (hready : Ready dom F mem dirty buckets.flatten)
    (hrun : sw.pass nthreads sched joins buckets mem dirty = some r) :
    r.finished.Perm buckets.flatten ∧ Ready dom F r.mem r.dirty r.next := by
  obtain ⟨σ, h, hwait, hqueue, hnext, hr, _⟩ := pass_end mem (fun _ _ => True)
    (fun _ _ => True) (fun _ _ => True) law hn hready hrun
  have hrest : ∀ w ∈ σ.workers, w.rest = [] ∧ w.current = [] ∧ w.todo = [] := by
    intro w hw
    have := hwait w hw
    cases w with
    | waiting out => exact ⟨rfl, rfl, rfl⟩
    | _ => cases this
  have hflagged : (σ.flagged []).Perm r.next := by
    refine List.Perm.trans ?_ hnext.symm
    simp only [Machine.flagged, hqueue, List.append_nil, List.nil_append]
    rw [List.flatMap_congr fun w hw => by rw [(hrest w hw).1, List.nil_append]]
  have hcurrent : σ.workers.flatMap Worker.current = [] :=
    List.flatMap_eq_nil_iff.mpr fun w hw => (hrest w hw).2.1
  have htodo : σ.workers.flatMap Worker.todo = [] :=
    List.flatMap_eq_nil_iff.mpr fun w hw => (hrest w hw).2.2
  have hitems : σ.items [] = σ.finished := by
    have hnone : (σ.workers.flatMap fun w => w.current ++ w.rest) = [] := by
      apply List.flatMap_eq_nil_iff.mpr
      intro w hw
      rw [(hrest w hw).1, (hrest w hw).2.1, List.append_nil]
    simp only [Machine.items, hqueue, hnone, List.append_nil]
  have hcount : ∀ s, r.next.count s = (σ.dirty s).toNat := by
    intro s
    rw [← hflagged.count_eq s]
    exact h.flags s
  rw [hr]
  refine ⟨?_, hcount, ?_, ?_⟩
  · apply List.perm_iff_count.mpr
    intro s
    rw [← h.accounted s, hitems]
  · exact fun s hs => h.legal s (hflagged.mem_iff.mpr hs)
  · intro s hs
    rcases h.covered s hs with hset | (hd | ht) | hc
    · exact Or.inl hset
    · right
      apply List.count_pos_iff.mp
      rw [hcount, hd]
      exact Nat.one_pos
    · rw [htodo] at ht
      cases ht
    · rw [hcurrent] at hc
      cases hc

/-- Values that every allowed write keeps. -/
theorem pass_bounded (fin : S → V) (Good Allowed : S → V → Prop) (law : sw.Lawful dom reads F)
    (hn : 0 < nthreads)
    (hready : Ready dom F mem dirty buckets.flatten)
    (hrun : sw.pass nthreads sched joins buckets mem dirty = some r)
    (hupdate : ∀ s, dom s → (sw.update s).Keeps fin P fun r => ∀ v, r = some v → Good s v)
    (hgood : ∀ s v, Good s v → Allowed s v → P s v) (hmem : ∀ i, P i (mem i))
    (hallow : ∀ w ∈ r.writes, Allowed w.1 w.2) :
    (∀ i, P i (r.mem i)) ∧ ∀ w ∈ r.writes, P w.1 w.2 := by
  obtain ⟨σ, _, _, _, _, hr, hb⟩ := pass_end fin P Good Allowed law hn
    hready hrun
  rw [hr] at hallow ⊢
  exact hb hupdate hgood hmem hallow

end Run

end Pass

end Handshake
