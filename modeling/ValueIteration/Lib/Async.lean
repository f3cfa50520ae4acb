import Mathlib.Data.List.Nodup
import Mathlib.Data.List.Perm.Basic
import Mathlib.Data.Set.Insert

/-!
# Asynchronous rounds on a shared memory

Workers claim blocks of a task list from a shared cursor and execute their tasks
load by load and store by store, in any interleaving. A load returns the current
value of its location or the one it had when the round began. If every task stores
only to locations of its own, and to each at most once, then a finished round has
executed every task exactly once, each load having returned the value before or the
value after the round.
-/

set_option autoImplicit false

namespace Async

/-- A program over shared locations. -/
inductive Prog (L V α : Type) where
  | ret (a : α)
  | load (i : L) (k : V → Prog L V α)
  | store (i : L) (v : V) (k : Prog L V α)

namespace Prog

variable {L V α β : Type}

def bind : Prog L V α → (α → Prog L V β) → Prog L V β
  | ret a, f => f a
  | load i k, f => load i fun v => (k v).bind f
  | store i v k, f => store i v (k.bind f)

/-- Executed against a memory that stands still, stores being dropped. -/
def peek (m : L → V) : Prog L V α → α
  | ret a => a
  | load i k => (k (m i)).peek m
  | store _ _ k => k.peek m

@[simp] theorem ret_bind (a : α) (f : α → Prog L V β) : (ret a).bind f = f a := rfl

@[simp] theorem load_bind (i : L) (k : V → Prog L V α) (f : α → Prog L V β) :
    (load i k).bind f = load i fun v => (k v).bind f := rfl

@[simp] theorem store_bind (i : L) (v : V) (k : Prog L V α) (f : α → Prog L V β) :
    (store i v k).bind f = store i v (k.bind f) := rfl

@[simp] theorem peek_ret (m : L → V) (a : α) : (ret a).peek m = a := rfl

@[simp] theorem peek_load (m : L → V) (i : L) (k : V → Prog L V α) :
    (load i k).peek m = (k (m i)).peek m := rfl

theorem peek_bind (m : L → V) (p : Prog L V α) (f : α → Prog L V β) :
    (p.bind f).peek m = (f (p.peek m)).peek m := by
  induction p with
  | ret a => rfl
  | load i k ih => exact ih (m i)
  | store i v k ih => exact ih

/-- Every store goes to a location of `own` outside the set written so far. -/
def Disciplined (own : L → Prop) (post : Set L → α → Prop) : Set L → Prog L V α → Prop
  | W, ret a => post W a
  | W, load _ k => ∀ v, Disciplined own post W (k v)
  | W, store i _ k => own i ∧ i ∉ W ∧ Disciplined own post (insert i W) k

theorem disciplined_bind {own : L → Prop} {post : Set L → β → Prop} {p : Prog L V α}
    {f : α → Prog L V β} : ∀ {W : Set L}, (p.bind f).Disciplined own post W ↔
      p.Disciplined own (fun W' a => (f a).Disciplined own post W') W := by
  induction p with
  | ret a => intro W; exact Iff.rfl
  | load i k ih => intro W; exact forall_congr' fun v => ih v
  | store i v k ih => intro W; exact and_congr_right fun _ => and_congr_right fun _ => ih

theorem Disciplined.mono {own : L → Prop} {post post' : Set L → α → Prop} {p : Prog L V α}
    (h : ∀ W a, post W a → post' W a) : ∀ {W : Set L}, p.Disciplined own post W →
      p.Disciplined own post' W := by
  induction p with
  | ret a => intro W hp; exact h W a hp
  | load i k ih => intro W hp v; exact ih v (hp v)
  | store i v k ih => intro W hp; exact ⟨hp.1, hp.2.1, ih hp.2.2⟩

/-- While every load returns a value that satisfies `P`, so does every stored value,
and the result satisfies `post`; a stored value may be taken to agree with `fin`. -/
def Keeps (fin : L → V) (P : L → V → Prop) (post : α → Prop) : Prog L V α → Prop
  | ret a => post a
  | load i k => ∀ v, P i v → Keeps fin P post (k v)
  | store i v k => fin i = v → P i v ∧ Keeps fin P post k

theorem keeps_bind {fin : L → V} {P : L → V → Prop} {post : β → Prop} {p : Prog L V α}
    {f : α → Prog L V β} :
    (p.bind f).Keeps fin P post ↔ p.Keeps fin P fun a => (f a).Keeps fin P post := by
  induction p with
  | ret a => exact Iff.rfl
  | load i k ih => exact forall_congr' fun v => forall_congr' fun _ => ih v
  | store i v k ih => exact forall_congr' fun _ => and_congr_right fun _ => ih

theorem Keeps.mono {fin : L → V} {P : L → V → Prop} {post post' : α → Prop}
    (h : ∀ a, post a → post' a) {p : Prog L V α} : p.Keeps fin P post → p.Keeps fin P post' := by
  induction p with
  | ret a => exact h a
  | load i k ih => intro hp v hv; exact ih v (hp v hv)
  | store i v k ih => intro hp hv; exact ⟨(hp hv).1, ih (hp hv).2⟩

/-- A program without stores. -/
def ReadOnly : Prog L V α → Prop
  | ret _ => True
  | load _ k => ∀ v, (k v).ReadOnly
  | store _ _ _ => False

theorem readOnly_bind {p : Prog L V α} {f : α → Prog L V β} (hp : p.ReadOnly)
    (hf : ∀ a, (f a).ReadOnly) : (p.bind f).ReadOnly := by
  induction p with
  | ret a => exact hf a
  | load i k ih => exact fun v => ih v (hp v)
  | store i v k ih => exact hp.elim

theorem ReadOnly.disciplined {own : L → Prop} {post : Set L → α → Prop} {W : Set L}
    {p : Prog L V α} (hp : p.ReadOnly) (h : ∀ a, post W a) : p.Disciplined own post W := by
  induction p with
  | ret a => exact h a
  | load i k ih => exact fun v => ih v (hp v)
  | store i v k ih => exact hp.elim

theorem ReadOnly.keeps {fin : L → V} {P : L → V → Prop} {post : α → Prop} {p : Prog L V α}
    (hp : p.ReadOnly) (h : ∀ a, post a) : p.Keeps fin P post := by
  induction p with
  | ret a => exact h a
  | load i k ih => exact fun v _ => ih v (hp v)
  | store i v k ih => exact hp.elim

/-- Executed against a memory that satisfies `P`, the result satisfies `post`. -/
theorem Keeps.peek {fin : L → V} {P : L → V → Prop} {post : α → Prop} {m : L → V}
    {p : Prog L V α} (hp : p.Keeps fin P post) (hm : ∀ i, P i (m i)) (hro : p.ReadOnly) :
    post (p.peek m) := by
  induction p with
  | ret a => exact hp
  | load i k ih => exact ih (m i) (hp _ (hm i)) (hro _)
  | store i v k ih => exact hro.elim

/-- A program without stores that loads from `S` only. -/
def LoadsFrom (S : Set L) : Prog L V α → Prop
  | ret _ => True
  | load i k => i ∈ S ∧ ∀ v, (k v).LoadsFrom S
  | store _ _ _ => False

theorem loadsFrom_bind {S : Set L} {p : Prog L V α} {f : α → Prog L V β} (hp : p.LoadsFrom S)
    (hf : ∀ a, (f a).LoadsFrom S) : (p.bind f).LoadsFrom S := by
  induction p with
  | ret a => exact hf a
  | load i k ih => exact ⟨hp.1, fun v => ih v (hp.2 v)⟩
  | store i v k ih => exact hp.elim

/-- Where the loads agree with a memory, so does the result. -/
theorem LoadsFrom.keeps {fin m : L → V} {S : Set L} {p : Prog L V α} (hp : p.LoadsFrom S) :
    p.Keeps fin (fun i v => i ∈ S → v = m i) fun r => r = p.peek m := by
  induction p with
  | ret a => rfl
  | load i k ih =>
    intro v hv
    rw [hv hp.1]
    exact ih (m i) (hp.2 _)
  | store i v k ih => exact hp.elim

/-- An execution in which a load returns the value before or after the round, but
never the later value of an own location not written yet; stores set the value after
the round. `W` and `W'` are the locations written before and after it. -/
def Runs (own : L → Prop) (start fin : L → V) : Set L → Prog L V α → α → Set L → Prop
  | W, ret a, r, W' => a = r ∧ W = W'
  | W, load i k, r, W' =>
    ∃ v, (v = start i ∨ v = fin i ∧ (own i → i ∈ W)) ∧ Runs own start fin W (k v) r W'
  | W, store i v k, r, W' => fin i = v ∧ Runs own start fin (insert i W) k r W'

/-- Where the values before and after a round satisfy `P`, results satisfy `post`. -/
theorem Keeps.runs {own : L → Prop} {start fin : L → V} {P : L → V → Prop} {post : α → Prop}
    (hstart : ∀ i, P i (start i)) (hfin : ∀ i, P i (fin i)) {p : Prog L V α} {r : α}
    {W' : Set L} : ∀ {W : Set L}, p.Keeps fin P post → p.Runs own start fin W r W' → post r := by
  induction p with
  | ret a =>
    rintro W hp ⟨rfl, _⟩
    exact hp
  | load i k ih =>
    rintro W hp ⟨v, hv, hr⟩
    refine ih v (hp v ?_) hr
    rcases hv with rfl | ⟨rfl, _⟩
    · exact hstart i
    · exact hfin i
  | store i v k ih =>
    rintro W hp ⟨hv, hr⟩
    exact ih (hp hv).2 hr

theorem ReadOnly.runs {own : L → Prop} {start fin : L → V} {p : Prog L V α} {r : α}
    {W W' : Set L} (hp : p.ReadOnly) (h : p.Runs own start fin W r W') : W' = W := by
  induction p with
  | ret a => exact h.2.symm
  | load i k ih =>
    obtain ⟨v, _, hr⟩ := h
    exact ih v (hp v) hr
  | store i v k ih => exact hp.elim

theorem runs_bind {own : L → Prop} {start fin : L → V} {p : Prog L V α} {f : α → Prog L V β}
    {r : β} {W'' : Set L} : ∀ {W : Set L}, (p.bind f).Runs own start fin W r W'' ↔
      ∃ a W', p.Runs own start fin W a W' ∧ (f a).Runs own start fin W' r W'' := by
  induction p with
  | ret a =>
    intro W
    constructor
    · intro h
      exact ⟨a, W, ⟨rfl, rfl⟩, h⟩
    · rintro ⟨_, _, ⟨rfl, rfl⟩, h⟩
      exact h
  | load i k ih =>
    intro W
    constructor
    · rintro ⟨v, hv, h⟩
      obtain ⟨a, W', h1, h2⟩ := (ih v).mp h
      exact ⟨a, W', ⟨v, hv, h1⟩, h2⟩
    · rintro ⟨a, W', ⟨v, hv, h1⟩, h2⟩
      exact ⟨v, hv, (ih v).mpr ⟨a, W', h1, h2⟩⟩
  | store i v k ih =>
    intro W
    constructor
    · rintro ⟨hv, h⟩
      obtain ⟨a, W', h1, h2⟩ := ih.mp h
      exact ⟨a, W', ⟨hv, h1⟩, h2⟩
    · rintro ⟨a, W', ⟨hv, h1⟩, h2⟩
      exact ⟨hv, ih.mpr ⟨a, W', h1, h2⟩⟩

end Prog

/-- The tasks of one round and how they are claimed. -/
structure Round (C L V R : Type) where
  block : Nat
  cands : List C
  task : C → Prog L V R

/-- A worker between two claims, inside a task, or at the barrier; `log` holds the
results of its finished tasks. -/
inductive Worker (C L V R : Type) where
  | fetching (log : List (C × R))
  | working (log : List (C × R)) (c : C) (p : Prog L V R) (rest : List C)
  | waiting (log : List (C × R))

/-- Shared memory, kept as the values the round began with and those written since. -/
structure Machine (C L V R : Type) where
  start : L → V
  written : L → Option V
  cursor : Nat
  workers : List (Worker C L V R)

variable {C L V R : Type}

def Machine.mem (σ : Machine C L V R) (i : L) : V := (σ.written i).getD (σ.start i)

namespace Worker

def log : Worker C L V R → List (C × R)
  | fetching log => log
  | working log _ _ _ => log
  | waiting log => log

/-- Claimed tasks that were not begun. -/
def pending : Worker C L V R → List C
  | working _ _ _ rest => rest
  | _ => []

/-- The tasks a worker has claimed so far. -/
def held : Worker C L V R → List C
  | fetching log => log.map (·.1)
  | working log c _ rest => log.map (·.1) ++ c :: rest
  | waiting log => log.map (·.1)

def isWaiting : Worker C L V R → Bool
  | waiting _ => true
  | _ => false

end Worker

namespace Round

variable (rd : Round C L V R)

/-- Begin the next task of a block, or claim another block. -/
def next (log : List (C × R)) : List C → Worker C L V R
  | [] => .fetching log
  | c :: rest => .working log c (rd.task c) rest

variable [DecidableEq L]

/-- One step of worker `e.1`; `e.2` lets a load return the value the location had
when the round began. -/
def step (σ : Machine C L V R) (e : Nat × Bool) : Machine C L V R :=
  match σ.workers[e.1]? with
  | none => σ
  | some (.waiting _) => σ
  | some (.fetching log) =>
    let w := if rd.cands.length ≤ σ.cursor then .waiting log
      else rd.next log ((rd.cands.drop σ.cursor).take rd.block)
    { σ with cursor := σ.cursor + rd.block, workers := σ.workers.set e.1 w }
  | some (.working log c (.ret r) rest) =>
    { σ with workers := σ.workers.set e.1 (rd.next (log ++ [(c, r)]) rest) }
  | some (.working log c (.load i k) rest) =>
    let v := if e.2 then σ.start i else σ.mem i
    { σ with workers := σ.workers.set e.1 (.working log c (k v) rest) }
  | some (.working log c (.store i v k) rest) =>
    { σ with
      written := Function.update σ.written i (some v)
      workers := σ.workers.set e.1 (.working log c k rest) }

def init (nthreads : Nat) (start : L → V) : Machine C L V R :=
  ⟨start, fun _ => none, 0, List.replicate nthreads (.fetching [])⟩

/-- The memory and the workers' logs once all of them wait at the barrier; `none`
for a schedule that ends earlier. -/
def run (nthreads : Nat) (start : L → V) (sched : List (Nat × Bool)) :
    Option ((L → V) × List (List (C × R))) :=
  let σ := sched.foldl rd.step (init nthreads start)
  if σ.workers.all (·.isWaiting) then some (σ.mem, σ.workers.map (·.log)) else none

end Round

/-- What a finished round has done. -/
structure Round.Done (rd : Round C L V R) (own : C → L → Prop) (start fin : L → V)
    (log : List (C × R)) : Prop where
  once : (log.map (·.1)).Perm rd.cands
  ran : ∀ c r, (c, r) ∈ log → ∃ W, (rd.task c).Runs (own c) start fin ∅ r W ∧
    ∀ i, own c i → i ∉ W → fin i = start i
  frame : ∀ i, (∀ c ∈ rd.cands, ¬ own c i) → fin i = start i

section Soundness
variable {rd : Round C L V R} {own : C → L → Prop} {start : L → V}

/-- `fin` has the values written so far. -/
def Extends (fin : L → V) (G : L → Option V) : Prop := ∀ i v, G i = some v → fin i = v

/-- What is known of a worker, `G` being the values written since the round began. -/
structure WorkerOk (rd : Round C L V R) (own : C → L → Prop) (start : L → V)
    (G : L → Option V) (w : Worker C L V R) : Prop where
  logged : ∀ c r, (c, r) ∈ w.log → ∃ W,
    (∀ fin, Extends fin G → (rd.task c).Runs (own c) start fin ∅ r W) ∧
      ∀ i, own c i → G i ≠ none → i ∈ W
  active : ∀ log c p rest, w = .working log c p rest → ∃ W,
    p.Disciplined (own c) (fun _ _ => True) W ∧
      (∀ fin, Extends fin G → ∀ r W', p.Runs (own c) start fin W r W' →
        (rd.task c).Runs (own c) start fin ∅ r W') ∧
      ∀ i, own c i → G i ≠ none → i ∈ W
  pending : ∀ c ∈ w.pending, ∀ i, own c i → G i = none

theorem mem_held_of_log {w : Worker C L V R} {c : C} {r : R} (h : (c, r) ∈ w.log) :
    c ∈ w.held := by
  have hm : c ∈ w.log.map (·.1) := List.mem_map_of_mem h
  cases w with
  | fetching log => exact hm
  | waiting log => exact hm
  | working log d p rest => exact List.mem_append_left _ hm

theorem mem_held_of_pending {w : Worker C L V R} {c : C} (h : c ∈ w.pending) : c ∈ w.held := by
  cases w with
  | fetching log => cases h
  | waiting log => cases h
  | working log d p rest => exact List.mem_append_right _ (List.mem_cons_of_mem _ h)

variable [DecidableEq L]

theorem Extends.of_update {fin : L → V} {G : L → Option V} {i : L} {v : V} (hG : G i = none)
    (h : Extends fin (Function.update G i (some v))) : Extends fin G := by
  intro j u hj
  by_cases hji : j = i
  · rw [hji, hG] at hj
    cases hj
  · exact h j u (by rw [Function.update_of_ne hji]; exact hj)

theorem update_ne_none {G : L → Option V} {i j : L} {v : V} (hji : j ≠ i)
    (h : Function.update G i (some v) j ≠ none) : G j ≠ none := by
  rwa [Function.update_of_ne hji] at h

/-- A store does not disturb a worker that holds no task owning the location. -/
theorem WorkerOk.write {G : L → Option V} {w : Worker C L V R} {i : L} {v : V}
    (h : WorkerOk rd own start G w) (hG : G i = none) (hw : ∀ c ∈ w.held, ¬ own c i) :
    WorkerOk rd own start (Function.update G i (some v)) w := by
  have hne {c : C} (hc : c ∈ w.held) {j : L} (hj : own c j) : j ≠ i :=
    fun heq => hw c hc (heq ▸ hj)
  refine ⟨?_, ?_, ?_⟩
  · intro c r hc
    obtain ⟨W, hrun, hW⟩ := h.logged c r hc
    refine ⟨W, fun fin hfin => hrun fin (hfin.of_update hG), ?_⟩
    intro j hj hjw
    exact hW j hj (update_ne_none (hne (mem_held_of_log hc) hj) hjw)
  · intro log c p rest heq
    obtain ⟨W, hdis, hrun, hW⟩ := h.active log c p rest heq
    have hc : c ∈ w.held := by
      rw [heq]
      exact List.mem_append_right _ List.mem_cons_self
    refine ⟨W, hdis, fun fin hfin => hrun fin (hfin.of_update hG), ?_⟩
    intro j hj hjw
    exact hW j hj (update_ne_none (hne hc hj) hjw)
  · intro c hc j hj
    rw [Function.update_of_ne (hne (mem_held_of_pending hc) hj)]
    exact h.pending c hc j hj

/-- The invariant of a round. -/
structure Inv (rd : Round C L V R) (own : C → L → Prop) (start : L → V)
    (σ : Machine C L V R) : Prop where
  start_eq : σ.start = start
  claimed : (σ.workers.flatMap (·.held)).Perm (rd.cands.take σ.cursor)
  workers : ∀ w ∈ σ.workers, WorkerOk rd own start σ.written w
  barrier : ∀ w ∈ σ.workers, w.isWaiting = true → rd.cands.length ≤ σ.cursor
  unclaimed : ∀ c ∈ rd.cands.drop σ.cursor, ∀ i, own c i → σ.written i = none
  frame : ∀ i, σ.written i ≠ none → ∃ c ∈ rd.cands, own c i

/-- What tasks must satisfy for a round to be sound. -/
structure Round.Lawful (rd : Round C L V R) (own : C → L → Prop) : Prop where
  block_pos : 0 < rd.block
  nodup : rd.cands.Nodup
  disjoint : ∀ c ∈ rd.cands, ∀ d ∈ rd.cands, ∀ i, own c i → own d i → c = d
  disciplined : ∀ c ∈ rd.cands, (rd.task c).Disciplined (own c) (fun _ _ => True) ∅

omit [DecidableEq L] in
theorem Inv.init (nthreads : Nat) :
    Inv rd own start (Round.init nthreads start) := by
  have hfresh : ∀ w ∈ (Round.init nthreads start : Machine C L V R).workers,
      w = .fetching [] := fun w hw => List.eq_of_mem_replicate hw
  refine ⟨rfl, ?_, ?_, ?_, fun _ _ _ _ => rfl, fun _ h => absurd rfl h⟩
  · have hheld : (Round.init nthreads start : Machine C L V R).workers.flatMap (·.held) = [] := by
      apply List.flatMap_eq_nil_iff.mpr
      intro w hw
      rw [hfresh w hw]
      rfl
    rw [hheld]
    exact List.Perm.refl _
  · intro w hw
    rw [hfresh w hw]
    refine ⟨?_, ?_, ?_⟩
    · intro c r h
      cases h
    · intro log c p rest h
      cases h
    · intro c h
      cases h
  · intro w hw h
    rw [hfresh w hw] at h
    cases h

omit [DecidableEq L] in
theorem split_worker {ws : List (Worker C L V R)} {n : Nat} {w : Worker C L V R}
    (h : ws[n]? = some w) :
    ∃ pre post, ws = pre ++ w :: post ∧ ∀ w', ws.set n w' = pre ++ w' :: post := by
  obtain ⟨hn, hw⟩ := List.getElem?_eq_some_iff.mp h
  refine ⟨ws.take n, ws.drop (n + 1), ?_, ?_⟩
  · rw [← hw, List.getElem_cons_drop, List.take_append_drop]
  · intro w'
    rw [List.set_eq_take_append_cons_drop, if_pos hn]

omit [DecidableEq L] in
theorem forall_replaced {P : Worker C L V R → Prop} {pre post : List (Worker C L V R)}
    {w w' : Worker C L V R} (h : ∀ u ∈ pre ++ w :: post, P u) (hw' : P w') :
    ∀ u ∈ pre ++ w' :: post, P u := by
  intro u hu
  rcases List.mem_append.mp hu with hu | hu
  · exact h u (List.mem_append_left _ hu)
  · rcases List.mem_cons.mp hu with rfl | hu
    · exact hw'
    · exact h u (List.mem_append_right _ (List.mem_cons_of_mem _ hu))

omit [DecidableEq L] in
theorem held_next (log : List (C × R)) (blk : List C) :
    (rd.next log blk).held = log.map (·.1) ++ blk := by
  cases blk with
  | nil => exact (List.append_nil _).symm
  | cons c rest => rfl

omit [DecidableEq L] in
theorem not_isWaiting_next (log : List (C × R)) (blk : List C) :
    (rd.next log blk).isWaiting = false := by
  cases blk <;> rfl

omit [DecidableEq L] in
/-- A worker that begins tasks whose locations were not written yet. -/
theorem WorkerOk.next {G : L → Option V} {w : Worker C L V R} (law : rd.Lawful own)
    {log : List (C × R)} {blk : List C}
    (hlog : ∀ c r, (c, r) ∈ log → ∃ W,
      (∀ fin, Extends fin G → (rd.task c).Runs (own c) start fin ∅ r W) ∧
        ∀ i, own c i → G i ≠ none → i ∈ W)
    (hblk : ∀ c ∈ blk, c ∈ rd.cands ∧ ∀ i, own c i → G i = none) (hw : w = rd.next log blk) :
    WorkerOk rd own start G w := by
  subst hw
  cases blk with
  | nil =>
    refine ⟨hlog, ?_, ?_⟩
    · intro log c p rest h
      cases h
    · intro c h
      cases h
  | cons d blk =>
    refine ⟨hlog, ?_, ?_⟩
    · intro log c p rest h
      cases h
      obtain ⟨hmem, hfree⟩ := hblk d List.mem_cons_self
      refine ⟨∅, law.disciplined d hmem, fun fin _ r W' hr => hr, ?_⟩
      intro i hi hw
      exact absurd (hfree i hi) hw
    · intro c hc
      exact (hblk c (List.mem_cons_of_mem _ hc)).2

omit [DecidableEq L] in
/-- Replacing one worker whose claims stay the same keeps everything but what is known
of that worker. -/
theorem Inv.replace {σ : Machine C L V R} {pre post : List (Worker C L V R)}
    {w w' : Worker C L V R} (h : Inv rd own start σ) (hws : σ.workers = pre ++ w :: post)
    (hheld : w'.held = w.held) (hok : WorkerOk rd own start σ.written w')
    (hwait : w'.isWaiting = false) :
    Inv rd own start { σ with workers := pre ++ w' :: post } where
  start_eq := h.start_eq
  claimed := by
    have hc := h.claimed
    simp only [hws, List.flatMap_append, List.flatMap_cons] at hc
    simp only [List.flatMap_append, List.flatMap_cons, hheld]
    exact hc
  workers := by
    have hworkers := h.workers
    rw [hws] at hworkers
    exact forall_replaced hworkers hok
  barrier := by
    have hbarrier := h.barrier
    rw [hws] at hbarrier
    refine forall_replaced hbarrier fun hw => ?_
    rw [hwait] at hw
    cases hw
  unclaimed := h.unclaimed
  frame := h.frame

omit [DecidableEq L] in
theorem Inv.held_mem {σ : Machine C L V R} (h : Inv rd own start σ)
    {w : Worker C L V R} (hw : w ∈ σ.workers) {c : C} (hc : c ∈ w.held) : c ∈ rd.cands := by
  have hmem : c ∈ σ.workers.flatMap (·.held) := List.mem_flatMap.mpr ⟨w, hw, hc⟩
  exact List.mem_of_mem_take (h.claimed.mem_iff.mp hmem)

omit [DecidableEq L] in
/-- Claimed tasks are distinct, so a location of an active task has no other owner. -/
theorem Inv.sole_owner {σ : Machine C L V R} {pre post : List (Worker C L V R)}
    {log : List (C × R)} {c : C} {p : Prog L V R} {rest : List C} {i : L}
    (law : rd.Lawful own) (h : Inv rd own start σ)
    (hws : σ.workers = pre ++ .working log c p rest :: post) (hown : own c i) {d : C}
    (hd : d ∈ pre.flatMap (·.held) ∨ d ∈ log.map (·.1) ∨ d ∈ rest ∨
      d ∈ post.flatMap (·.held) ∨ d ∈ rd.cands.drop σ.cursor) : ¬ own d i := by
  have hperm := h.claimed
  simp only [hws, List.flatMap_append, List.flatMap_cons] at hperm
  have hall := law.nodup
  rw [← List.take_append_drop σ.cursor rd.cands] at hall
  have hnodup := (hperm.append_right (rd.cands.drop σ.cursor)).nodup_iff.mpr hall
  have hmem : ∀ {b : C}, b ∈ pre.flatMap (·.held) ++ ((log.map (·.1) ++ c :: rest) ++
      post.flatMap (·.held)) ++ rd.cands.drop σ.cursor → b ∈ rd.cands := by
    intro b hb
    have hb' := (hperm.append_right (rd.cands.drop σ.cursor)).mem_iff.mp hb
    rwa [List.take_append_drop] at hb'
  intro hdi
  have heq : d = c := by
    refine law.disjoint d (hmem ?_) c (hmem ?_) i hdi hown
    · rcases hd with hd | hd | hd | hd | hd <;> simp only [List.mem_append, List.mem_cons, hd,
        true_or, or_true]
    · simp only [List.mem_append, List.mem_cons, true_or, or_true]
  subst heq
  simp only [Worker.held, List.nodup_append, List.nodup_cons, List.mem_append,
    List.mem_cons] at hnodup
  obtain ⟨⟨_, ⟨⟨_, ⟨hrest, _⟩, hlog⟩, _, hpost⟩, hpre⟩, _, hdrop⟩ := hnodup
  rcases hd with hd | hd | hd | hd | hd
  · exact hpre d hd d (Or.inl (Or.inr (Or.inl rfl))) rfl
  · exact hlog d hd d (Or.inl rfl) rfl
  · exact hrest hd
  · exact hpost d (Or.inr (Or.inl rfl)) d hd rfl
  · exact hdrop d (Or.inr (Or.inl (Or.inr (Or.inl rfl)))) d hd rfl

omit [DecidableEq L] in
theorem Inv.active_mem {σ : Machine C L V R} {pre post : List (Worker C L V R)}
    {log : List (C × R)} {c : C} {p : Prog L V R} {rest : List C}
    (h : Inv rd own start σ) (hws : σ.workers = pre ++ .working log c p rest :: post) :
    c ∈ rd.cands := by
  refine h.held_mem (w := .working log c p rest) ?_ ?_
  · rw [hws]
    exact List.mem_append_right _ List.mem_cons_self
  · exact List.mem_append_right _ List.mem_cons_self

/-- What a store leaves known of the worker that made it. -/
theorem WorkerOk.store {G : L → Option V} {log : List (C × R)} {c : C} {i : L} {v : V}
    {k : Prog L V R} {rest : List C}
    (h : WorkerOk rd own start G (.working log c (.store i v k) rest)) (hGi : G i = none)
    (hsole : ∀ d, d ∈ log.map (·.1) ∨ d ∈ rest → ¬ own d i) :
    WorkerOk rd own start (Function.update G i (some v)) (.working log c k rest) := by
  have hne {d : C} (hd : d ∈ log.map (·.1) ∨ d ∈ rest) {j : L} (hj : own d j) : j ≠ i :=
    fun heq => hsole d hd (heq ▸ hj)
  refine ⟨?_, ?_, ?_⟩
  · intro d r hd
    obtain ⟨W, hrun, hW⟩ := h.logged d r hd
    refine ⟨W, fun fin hfin => hrun fin (hfin.of_update hGi), ?_⟩
    intro j hj hjw
    exact hW j hj (update_ne_none (hne (Or.inl (List.mem_map_of_mem hd)) hj) hjw)
  · intro log' d p rest' heq
    cases heq
    obtain ⟨W, ⟨_, _, hdis⟩, hrun, hW⟩ := h.active log c _ rest rfl
    refine ⟨insert i W, hdis, ?_, ?_⟩
    · intro fin hfin r W' hr
      exact hrun fin (hfin.of_update hGi) r W' ⟨hfin i v (Function.update_self _ _ _), hr⟩
    · intro j hj hjw
      by_cases hji : j = i
      · exact Or.inl hji
      · exact Or.inr (hW j hj (update_ne_none hji hjw))
  · intro d hd j hj
    rw [Function.update_of_ne (hne (Or.inr hd) hj)]
    exact h.pending d hd j hj

omit [DecidableEq L] in
/-- The written values never cover a location an active task is about to store to. -/
theorem WorkerOk.store_fresh {G : L → Option V} {log : List (C × R)} {c : C} {i : L} {v : V}
    {k : Prog L V R} {rest : List C}
    (h : WorkerOk rd own start G (.working log c (.store i v k) rest)) : own c i ∧ G i = none := by
  obtain ⟨W, ⟨hown, hnew, _⟩, _, hW⟩ := h.active log c _ rest rfl
  refine ⟨hown, ?_⟩
  by_contra hne
  exact hnew (hW i hown hne)

/-- A store of the active task of one worker. -/
theorem Inv.store {σ : Machine C L V R} {pre post : List (Worker C L V R)}
    {log : List (C × R)} {c : C} {i : L} {v : V} {k : Prog L V R} {rest : List C}
    (law : rd.Lawful own) (h : Inv rd own start σ)
    (hws : σ.workers = pre ++ .working log c (.store i v k) rest :: post) :
    Inv rd own start
      { σ with
        written := Function.update σ.written i (some v)
        workers := pre ++ .working log c k rest :: post } := by
  have hworkers := h.workers
  rw [hws] at hworkers
  have hok := hworkers (.working log c (.store i v k) rest)
    (List.mem_append_right _ List.mem_cons_self)
  obtain ⟨hown, hfresh⟩ := hok.store_fresh
  have hsole {d : C} := h.sole_owner law hws hown (d := d)
  have hwrite : ∀ w, (w ∈ pre ∨ w ∈ post) →
      WorkerOk rd own start (Function.update σ.written i (some v)) w := by
    intro w hw
    have hmem : w ∈ pre ++ .working log c (.store i v k) rest :: post := by
      rcases hw with hw | hw
      · exact List.mem_append_left _ hw
      · exact List.mem_append_right _ (List.mem_cons_of_mem _ hw)
    refine (hworkers w hmem).write hfresh ?_
    intro d hd
    have hfm {ws : List (Worker C L V R)} (hw : w ∈ ws) : d ∈ ws.flatMap (·.held) :=
      List.mem_flatMap.mpr ⟨w, hw, hd⟩
    rcases hw with hw | hw
    · exact hsole (Or.inl (hfm hw))
    · exact hsole (Or.inr (Or.inr (Or.inr (Or.inl (hfm hw)))))
  refine ⟨h.start_eq, ?_, ?_, ?_, ?_, ?_⟩
  · have hc := h.claimed
    simp only [hws, List.flatMap_append, List.flatMap_cons] at hc
    simp only [List.flatMap_append, List.flatMap_cons]
    exact hc
  · intro w hw
    rcases List.mem_append.mp hw with hw | hw
    · exact hwrite w (Or.inl hw)
    rcases List.mem_cons.mp hw with rfl | hw
    · refine hok.store hfresh ?_
      rintro d (hd | hd)
      · exact hsole (Or.inr (Or.inl hd))
      · exact hsole (Or.inr (Or.inr (Or.inl hd)))
    · exact hwrite w (Or.inr hw)
  · have hbarrier := h.barrier
    rw [hws] at hbarrier
    exact forall_replaced hbarrier fun hw => by cases hw
  · intro d hd j hj
    have hji : j ≠ i := by
      rintro rfl
      exact hsole (Or.inr (Or.inr (Or.inr (Or.inr hd)))) hj
    simp only [Function.update_of_ne hji]
    exact h.unclaimed d hd j hj
  · intro j hj
    by_cases hji : j = i
    · exact ⟨c, h.active_mem hws, hji ▸ hown⟩
    · exact h.frame j (update_ne_none hji hj)

omit [DecidableEq L] in
/-- A claim of the next block, or of nothing at the end of the list. -/
theorem Inv.fetch {σ : Machine C L V R} {pre post : List (Worker C L V R)}
    {log : List (C × R)} (law : rd.Lawful own) (h : Inv rd own start σ)
    (hws : σ.workers = pre ++ .fetching log :: post) :
    Inv rd own start
      { σ with
        cursor := σ.cursor + rd.block
        workers := pre ++ (if rd.cands.length ≤ σ.cursor then .waiting log
          else rd.next log ((rd.cands.drop σ.cursor).take rd.block)) :: post } := by
  have hworkers := h.workers
  rw [hws] at hworkers
  have hok := hworkers (.fetching log) (List.mem_append_right _ List.mem_cons_self)
  have hbarrier := h.barrier
  rw [hws] at hbarrier
  have hclaimed := h.claimed
  rw [hws, List.flatMap_append, List.flatMap_cons] at hclaimed
  have hlater {d : C} (hd : d ∈ rd.cands.drop (σ.cursor + rd.block)) :
      d ∈ rd.cands.drop σ.cursor := by
    rw [← List.drop_drop] at hd
    exact List.mem_of_mem_drop hd
  by_cases hend : rd.cands.length ≤ σ.cursor
  · simp only [hend, if_true]
    refine ⟨h.start_eq, ?_, ?_, ?_, fun d hd => h.unclaimed d (hlater hd), h.frame⟩
    · simp only [List.flatMap_append, List.flatMap_cons]
      rw [List.take_of_length_le hend] at hclaimed
      rw [List.take_of_length_le (by omega)]
      exact hclaimed
    · refine forall_replaced hworkers ⟨hok.logged, ?_, ?_⟩
      · intro log' c p rest heq
        cases heq
      · intro c hc
        cases hc
    · exact forall_replaced (fun w hw hwait => (hbarrier w hw hwait).trans (by simp))
        fun _ => by simp only; omega
  · simp only [hend, if_false]
    have hblk : ∀ c ∈ (rd.cands.drop σ.cursor).take rd.block,
        c ∈ rd.cands ∧ ∀ i, own c i → σ.written i = none := by
      intro c hc
      have hd := List.mem_of_mem_take hc
      exact ⟨List.mem_of_mem_drop hd, h.unclaimed c hd⟩
    refine ⟨h.start_eq, ?_, ?_, ?_, fun d hd => h.unclaimed d (hlater hd), h.frame⟩
    · simp only [List.flatMap_append, List.flatMap_cons, held_next, List.take_add]
      have hshift : (pre.flatMap (·.held) ++ ((log.map (·.1) ++
          (rd.cands.drop σ.cursor).take rd.block) ++ post.flatMap (·.held))).Perm
          ((pre.flatMap (·.held) ++ (log.map (·.1) ++ post.flatMap (·.held))) ++
            (rd.cands.drop σ.cursor).take rd.block) := by
        simp only [List.append_assoc]
        refine List.Perm.append_left _ (List.Perm.append_left _ ?_)
        exact List.perm_append_comm
      exact hshift.trans (hclaimed.append_right _)
    · exact forall_replaced hworkers (WorkerOk.next law hok.logged hblk rfl)
    · refine forall_replaced (fun w hw hwait => (hbarrier w hw hwait).trans (by simp)) ?_
      intro hw
      rw [not_isWaiting_next] at hw
      cases hw

omit [DecidableEq L] in
/-- The end of a task. -/
theorem Inv.finish {σ : Machine C L V R} {pre post : List (Worker C L V R)} {log : List (C × R)}
    {c : C} {r : R} {rest : List C} (law : rd.Lawful own) (h : Inv rd own start σ)
    (hws : σ.workers = pre ++ .working log c (.ret r) rest :: post) :
    Inv rd own start { σ with workers := pre ++ rd.next (log ++ [(c, r)]) rest :: post } := by
  have hmem : .working log c (.ret r) rest ∈ σ.workers := by
    rw [hws]
    exact List.mem_append_right _ List.mem_cons_self
  have hok := h.workers _ hmem
  obtain ⟨W, _, hrun, hW⟩ := hok.active log c _ rest rfl
  refine h.replace hws ?_ (WorkerOk.next law ?_ ?_ rfl) (not_isWaiting_next _ _)
  · rw [held_next]
    simp [Worker.held]
  · intro d r' hd
    rcases List.mem_append.mp hd with hd | hd
    · exact hok.logged d r' hd
    · cases List.mem_singleton.mp hd
      exact ⟨W, fun fin hfin => hrun fin hfin r W ⟨rfl, rfl⟩, hW⟩
  · intro d hd
    exact ⟨h.held_mem hmem (mem_held_of_pending hd), hok.pending d hd⟩

omit [DecidableEq L] in
/-- A load of either value. -/
theorem Inv.load {σ : Machine C L V R} {pre post : List (Worker C L V R)} {log : List (C × R)}
    {c : C} {i : L} {k : V → Prog L V R} {rest : List C} (h : Inv rd own start σ)
    (hws : σ.workers = pre ++ .working log c (.load i k) rest :: post) {v : V}
    (hv : v = σ.start i ∨ v = σ.mem i) :
    Inv rd own start { σ with workers := pre ++ .working log c (k v) rest :: post } := by
  have hok := h.workers (.working log c (.load i k) rest) (by rw [hws]; simp)
  obtain ⟨W, hdis, hrun, hW⟩ := hok.active log c _ rest rfl
  refine h.replace hws rfl ⟨hok.logged, ?_, hok.pending⟩ rfl
  intro log' d q rest' heq
  cases heq
  refine ⟨W, hdis v, ?_, hW⟩
  intro fin hfin r W' hr
  refine hrun fin hfin r W' ⟨v, ?_, hr⟩
  rw [Machine.mem, h.start_eq] at hv
  cases hG : σ.written i with
  | none =>
    rw [hG] at hv
    exact Or.inl (hv.elim id id)
  | some u =>
    rw [hG] at hv
    refine hv.imp id fun hv => ⟨hv.trans (hfin i u hG).symm, fun hi => hW i hi ?_⟩
    rw [hG]
    exact Option.some_ne_none u

/-- What one step does, the moving worker being split out of the list. -/
inductive Step (rd : Round C L V R) (σ : Machine C L V R) : Machine C L V R → Prop where
  | idle : Step rd σ σ
  | fetch {pre post : List (Worker C L V R)} {log : List (C × R)}
      (hws : σ.workers = pre ++ .fetching log :: post) : Step rd σ
      { σ with
        cursor := σ.cursor + rd.block
        workers := pre ++ (if rd.cands.length ≤ σ.cursor then .waiting log
          else rd.next log ((rd.cands.drop σ.cursor).take rd.block)) :: post }
  | finish {pre post : List (Worker C L V R)} {log : List (C × R)} {c : C} {r : R} {rest : List C}
      (hws : σ.workers = pre ++ .working log c (.ret r) rest :: post) : Step rd σ
      { σ with workers := pre ++ rd.next (log ++ [(c, r)]) rest :: post }
  | load {pre post : List (Worker C L V R)} {log : List (C × R)} {c : C} {i : L}
      {k : V → Prog L V R} {rest : List C} {v : V}
      (hws : σ.workers = pre ++ .working log c (.load i k) rest :: post)
      (hv : v = σ.start i ∨ v = σ.mem i) : Step rd σ
      { σ with workers := pre ++ .working log c (k v) rest :: post }
  | store {pre post : List (Worker C L V R)} {log : List (C × R)} {c : C} {i : L} {v : V}
      {k : Prog L V R} {rest : List C}
      (hws : σ.workers = pre ++ .working log c (.store i v k) rest :: post) : Step rd σ
      { σ with
        written := Function.update σ.written i (some v)
        workers := pre ++ .working log c k rest :: post }

theorem step_cases (σ : Machine C L V R) (e : Nat × Bool) : Step rd σ (rd.step σ e) := by
  unfold Round.step
  cases hw : σ.workers[e.1]? with
  | none => exact .idle
  | some w =>
    obtain ⟨pre, post, hws, hset⟩ := split_worker hw
    cases w with
    | waiting log => exact .idle
    | fetching log =>
      simp only [hset]
      exact .fetch hws
    | working log c p rest =>
      cases p with
      | ret r =>
        simp only [hset]
        exact .finish hws
      | load i k =>
        simp only [hset]
        refine .load hws ?_
        cases e.2 with
        | true => exact Or.inl rfl
        | false => exact Or.inr rfl
      | store i v k =>
        simp only [hset]
        exact .store hws

/-- Step lemma: whatever worker moves, the invariant holds. -/
theorem Inv.step {σ : Machine C L V R} (law : rd.Lawful own) (h : Inv rd own start σ)
    (e : Nat × Bool) : Inv rd own start (rd.step σ e) := by
  have hstep : Step rd σ (rd.step σ e) := step_cases σ e
  generalize rd.step σ e = σ' at hstep
  cases hstep with
  | idle => exact h
  | fetch hws => exact h.fetch law hws
  | finish hws => exact h.finish law hws
  | load hws hv => exact h.load hws hv
  | store hws => exact h.store law hws

/-- A written value is not written again. -/
theorem Inv.written_step {σ : Machine C L V R} (h : Inv rd own start σ) (e : Nat × Bool) {i : L}
    {v : V} (hi : σ.written i = some v) : (rd.step σ e).written i = some v := by
  have hstep : Step rd σ (rd.step σ e) := step_cases σ e
  generalize rd.step σ e = σ' at hstep
  cases hstep with
  | idle => exact hi
  | fetch hws => exact hi
  | finish hws => exact hi
  | load hws hv => exact hi
  | @store pre post log c j u k rest hws =>
    have hok := h.workers (.working log c (.store j u k) rest) (by rw [hws]; simp)
    have hne : i ≠ j := by
      rintro rfl
      rw [hok.store_fresh.2] at hi
      cases hi
    simp only [Function.update_of_ne hne, hi]

/-- Run lemma: the invariant holds after any schedule. -/
theorem Inv.run (law : rd.Lawful own) (sched : List (Nat × Bool)) : ∀ {σ : Machine C L V R},
    Inv rd own start σ → Inv rd own start (sched.foldl rd.step σ) ∧
      ∀ i v, σ.written i = some v → (sched.foldl rd.step σ).written i = some v := by
  induction sched with
  | nil => intro σ h; exact ⟨h, fun _ _ hi => hi⟩
  | cons e sched ih =>
    intro σ h
    obtain ⟨hinv, hkeep⟩ := ih (h.step law e)
    exact ⟨hinv, fun i v hi => hkeep i v (h.written_step e hi)⟩

theorem length_workers_step (σ : Machine C L V R) (e : Nat × Bool) :
    (rd.step σ e).workers.length = σ.workers.length := by
  unfold Round.step
  split <;> simp

theorem length_workers_run (sched : List (Nat × Bool)) : ∀ σ : Machine C L V R,
    (sched.foldl rd.step σ).workers.length = σ.workers.length := by
  induction sched with
  | nil => intro σ; rfl
  | cons e sched ih => intro σ; exact (ih _).trans (length_workers_step σ e)

omit [DecidableEq L] in
/-- At the barrier a worker holds exactly the tasks it has logged. -/
theorem held_of_waiting (ws : List (Worker C L V R)) (h : ∀ w ∈ ws, w.isWaiting = true) :
    (ws.map (·.log)).flatten.map (·.1) = ws.flatMap (·.held) := by
  induction ws with
  | nil => rfl
  | cons w ws ih =>
    have hw := h w List.mem_cons_self
    rw [List.map_cons, List.flatten_cons, List.map_append, List.flatMap_cons,
      ih fun u hu => h u (List.mem_cons_of_mem _ hu)]
    cases w with
    | waiting log => rfl
    | fetching log => cases hw
    | working log c p rest => cases hw

theorem Round.run_eq {nthreads : Nat} {sched : List (Nat × Bool)} {fin : L → V}
    {logs : List (List (C × R))} (h : rd.run nthreads start sched = some (fin, logs)) :
    let σ := sched.foldl rd.step (Round.init nthreads start)
    (∀ w ∈ σ.workers, w.isWaiting = true) ∧ fin = σ.mem ∧ logs = σ.workers.map (·.log) := by
  unfold Round.run at h
  simp only at h
  split at h
  · next hall =>
    simp only [Option.some.injEq, Prod.mk.injEq] at h
    exact ⟨List.all_eq_true.mp hall, h.1.symm, h.2.symm⟩
  · cases h

/-- A finished round executed every task once, each load having returned the value
before or after the round. -/
theorem Round.run_done (law : rd.Lawful own) {nthreads : Nat} (hn : 0 < nthreads)
    {sched : List (Nat × Bool)} {fin : L → V} {logs : List (List (C × R))}
    (h : rd.run nthreads start sched = some (fin, logs)) :
    rd.Done own start fin logs.flatten := by
  have hinit : Inv rd own start (Round.init nthreads start) := Inv.init nthreads
  have hinv := (hinit.run law sched).1
  obtain ⟨hwait, rfl, rfl⟩ := Round.run_eq h
  have hlen : (sched.foldl rd.step (Round.init nthreads start)).workers.length = nthreads :=
    (length_workers_run sched _).trans List.length_replicate
  generalize sched.foldl rd.step (Round.init nthreads start) = σ at hinv hwait hlen
  have hend : rd.cands.length ≤ σ.cursor := by
    obtain ⟨w, hw⟩ := List.exists_mem_of_length_pos (l := σ.workers) (by omega)
    exact hinv.barrier w hw (hwait w hw)
  have hext : Extends σ.mem σ.written := by
    intro i v hi
    rw [Machine.mem, hi]
    rfl
  have hsame : ∀ i, σ.written i = none → σ.mem i = start i := by
    intro i hi
    rw [Machine.mem, hi, hinv.start_eq]
    rfl
  refine ⟨?_, ?_, ?_⟩
  · rw [held_of_waiting σ.workers hwait]
    have hc := hinv.claimed
    rwa [List.take_of_length_le hend] at hc
  · intro c r hc
    obtain ⟨l, hl, hcl⟩ := List.mem_flatten.mp hc
    obtain ⟨w, hw, rfl⟩ := List.mem_map.mp hl
    obtain ⟨W, hrun, hW⟩ := (hinv.workers w hw).logged c r hcl
    refine ⟨W, hrun _ hext, ?_⟩
    intro i hi hnot
    refine hsame i ?_
    by_contra hne
    exact hnot (hW i hi hne)
  · intro i hi
    refine hsame i ?_
    by_contra hne
    obtain ⟨c, hc, hown⟩ := hinv.frame i hne
    exact hi c hc hown

end Soundness

section Rely
variable {rd : Round C L V R} {own : C → L → Prop} {start fin : L → V} {P : L → V → Prop}

/-- What a round keeps of the values in memory. -/
structure Kept (fin : L → V) (P : L → V → Prop) (σ : Machine C L V R) : Prop where
  mem : ∀ i, P i (σ.mem i)
  active : ∀ log c p rest, .working log c p rest ∈ σ.workers → p.Keeps fin P fun _ => True

theorem Kept.replace {σ : Machine C L V R} {pre post : List (Worker C L V R)}
    {w w' : Worker C L V R} (h : Kept fin P σ) (hws : σ.workers = pre ++ w :: post)
    {n : Nat} (hw' : ∀ log c p rest, w' = .working log c p rest → p.Keeps fin P fun _ => True) :
    Kept fin P { σ with cursor := n, workers := pre ++ w' :: post } := by
  refine ⟨h.mem, ?_⟩
  intro log c p rest hmem
  have hactive := h.active log c p rest
  rw [hws] at hactive
  rcases List.mem_append.mp hmem with hm | hm
  · exact hactive (List.mem_append_left _ hm)
  · rcases List.mem_cons.mp hm with hm | hm
    · exact hw' log c p rest hm.symm
    · exact hactive (List.mem_append_right _ (List.mem_cons_of_mem _ hm))

theorem keeps_next (htask : ∀ c ∈ rd.cands, (rd.task c).Keeps fin P fun _ => True)
    {log : List (C × R)} {blk : List C} (hblk : ∀ c ∈ blk, c ∈ rd.cands) :
    ∀ log' c p rest, rd.next log blk = .working log' c p rest → p.Keeps fin P fun _ => True := by
  intro log' c p rest heq
  cases blk with
  | nil => cases heq
  | cons d blk =>
    cases heq
    exact htask c (hblk c List.mem_cons_self)

variable [DecidableEq L]

/-- Step lemma of the rely condition. -/
theorem Kept.step {σ : Machine C L V R} (h : Inv rd own start σ) (hk : Kept fin P σ)
    (htask : ∀ c ∈ rd.cands, (rd.task c).Keeps fin P fun _ => True) (hstart : ∀ i, P i (start i))
    (e : Nat × Bool) (hfin : Extends fin (rd.step σ e).written) : Kept fin P (rd.step σ e) := by
  have hstep : Step rd σ (rd.step σ e) := step_cases σ e
  generalize rd.step σ e = σ' at hstep hfin
  cases hstep with
  | idle => exact hk
  | @fetch pre post log hws =>
    refine hk.replace hws ?_
    split
    · intro log' c p rest heq
      cases heq
    · exact keeps_next htask fun c hc => List.mem_of_mem_drop (List.mem_of_mem_take hc)
  | @finish pre post log c r rest hws =>
    refine hk.replace hws (keeps_next htask ?_)
    intro d hd
    exact h.held_mem (w := .working log c (.ret r) rest) (by rw [hws]; simp)
      (mem_held_of_pending hd)
  | @load pre post log c i k rest v hws hv =>
    refine hk.replace hws ?_
    intro log' d q rest' heq
    cases heq
    have hp := hk.active log c (.load i k) rest (by rw [hws]; simp)
    rcases hv with rfl | rfl
    · rw [h.start_eq]
      exact hp _ (hstart i)
    · exact hp _ (hk.mem i)
  | @store pre post log c i v k rest hws =>
    have hp := hk.active log c (.store i v k) rest (by rw [hws]; simp)
    obtain ⟨hv, hkeep⟩ := hp (hfin i v (Function.update_self _ _ _))
    refine ⟨?_, ?_⟩
    · intro j
      by_cases hji : j = i
      · subst hji
        simp only [Machine.mem, Function.update_self, Option.getD_some]
        exact hv
      · simp only [Machine.mem, Function.update_of_ne hji]
        exact hk.mem j
    · refine (hk.replace (n := σ.cursor) hws ?_).active
      intro log' d q rest' heq
      cases heq
      exact hkeep

/-- Rule for values: what the memory satisfies before the round and every task keeps,
it satisfies after the round. -/
theorem Round.run_keeps (law : rd.Lawful own) {nthreads : Nat} {sched : List (Nat × Bool)}
    {logs : List (List (C × R))} (h : rd.run nthreads start sched = some (fin, logs))
    (htask : ∀ c ∈ rd.cands, (rd.task c).Keeps fin P fun _ => True) (hstart : ∀ i, P i (start i)) :
    ∀ i, P i (fin i) := by
  obtain ⟨_, hfin, _⟩ := Round.run_eq h
  have hrun : ∀ (es : List (Nat × Bool)) (σ : Machine C L V R), Inv rd own start σ →
      Kept fin P σ → fin = (es.foldl rd.step σ).mem →
        Kept fin P (es.foldl rd.step σ) := by
    intro es
    induction es with
    | nil => intro σ _ hk _; exact hk
    | cons e es ih =>
      intro σ hσ hk hend
      have hσ' := hσ.step law e
      have hext : Extends fin (rd.step σ e).written := by
        intro i v hi
        rw [hend, List.foldl_cons, Machine.mem, (hσ'.run law es).2 i v hi]
        rfl
      exact ih _ hσ' (hk.step hσ htask hstart e hext) hend
  have hk := hrun sched _ (Inv.init nthreads)
    ⟨hstart, fun log c p rest hm => by cases List.eq_of_mem_replicate hm⟩ hfin
  intro i
  rw [hfin]
  exact hk.mem i

end Rely

end Async
