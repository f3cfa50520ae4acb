import ValueIteration.Lib.Async

/-!
# A round with one worker

A single worker that reads the current memory executes the tasks of a round one after
the other, whatever the size of the blocks it claims.
-/

set_option autoImplicit false

namespace Async

variable {C L V R α β : Type} [DecidableEq L]

namespace Prog

/-- Executed alone: the result and the memory it leaves. -/
def exec : Prog L V α → (L → V) → α × (L → V)
  | ret a, m => (a, m)
  | load i k, m => (k (m i)).exec m
  | store i v k, m => k.exec (Function.update m i v)

@[simp] theorem exec_ret (a : α) (m : L → V) : (ret a).exec m = (a, m) := rfl

@[simp] theorem exec_load (i : L) (k : V → Prog L V α) (m : L → V) :
    (load i k).exec m = (k (m i)).exec m := rfl

@[simp] theorem exec_store (i : L) (v : V) (k : Prog L V α) (m : L → V) :
    (store i v k).exec m = k.exec (Function.update m i v) := rfl

theorem exec_bind (p : Prog L V α) (f : α → Prog L V β) : ∀ m : L → V,
    (p.bind f).exec m = (f (p.exec m).1).exec (p.exec m).2 := by
  induction p with
  | ret a => intro m; rfl
  | load i k ih => intro m; exact ih (m i) m
  | store i v k ih => intro m; exact ih _

/-- Without stores the memory stands still. -/
theorem ReadOnly.exec {p : Prog L V α} (hp : p.ReadOnly) (m : L → V) :
    p.exec m = (p.peek m, m) := by
  induction p with
  | ret a => rfl
  | load i k ih => exact ih (m i) (hp _)
  | store i v k ih => exact hp.elim

end Prog

namespace Round

variable (rd : Round C L V R)

/-- The tasks of a list one after the other: their results and the memory they leave. -/
def execAll : List C → (L → V) → List (C × R) × (L → V)
  | [], m => ([], m)
  | c :: cs, m =>
    let r := (rd.task c).exec m
    let q := execAll cs r.2
    ((c, r.1) :: q.1, q.2)

/-- What is still to come when a single worker goes on alone. -/
def outlook (σ : Machine C L V R) : Worker C L V R → List (C × R) × (L → V)
  | .fetching log =>
    let q := rd.execAll (rd.cands.drop σ.cursor) σ.mem
    (log ++ q.1, q.2)
  | .working log c p rest =>
    let r := p.exec σ.mem
    let q := rd.execAll (rest ++ rd.cands.drop σ.cursor) r.2
    (log ++ (c, r.1) :: q.1, q.2)
  | .waiting log => (log, σ.mem)

theorem mem_update (σ : Machine C L V R) (i : L) (v : V) (ws : List (Worker C L V R)) :
    (Machine.mk σ.start (Function.update σ.written i (some v)) σ.cursor ws).mem =
      Function.update σ.mem i v := by
  funext j
  by_cases hj : j = i
  · subst hj
    simp [Machine.mem]
  · simp [Machine.mem, Function.update_of_ne hj]

/-- Beginning the next task of a block changes nothing about what is to come. -/
theorem outlook_next (σ : Machine C L V R) (log : List (C × R)) (blk : List C) :
    rd.outlook σ (rd.next log blk) =
      let q := rd.execAll (blk ++ rd.cands.drop σ.cursor) σ.mem
      (log ++ q.1, q.2) := by
  cases blk with
  | nil => rfl
  | cons c rest => rfl

/-- Step lemma: a step of the lone worker keeps the outlook. -/
theorem outlook_step {σ : Machine C L V R} {w : Worker C L V R} (hw : σ.workers = [w]) :
    ∃ w', (rd.step σ (0, false)).workers = [w'] ∧
      rd.outlook (rd.step σ (0, false)) w' = rd.outlook σ w := by
  have hget : σ.workers[0]? = some w := by rw [hw]; rfl
  have hset : ∀ w' : Worker C L V R, σ.workers.set 0 w' = [w'] := by
    intro w'
    rw [hw]
    rfl
  cases w with
  | waiting log =>
    have hstep : rd.step σ (0, false) = σ := by simp only [step, hget]
    rw [hstep]
    exact ⟨_, hw, rfl⟩
  | fetching log =>
    simp only [step, hget, hset]
    refine ⟨_, rfl, ?_⟩
    split
    · next hall =>
      simp only [outlook, List.drop_eq_nil_of_le hall, execAll, List.append_nil]
      rfl
    · rw [outlook_next]
      simp only [outlook, ← List.drop_drop, List.take_append_drop]
      rfl
  | working log c p rest =>
    cases p with
    | ret r =>
      simp only [step, hget, hset]
      refine ⟨_, rfl, ?_⟩
      rw [outlook_next]
      simp only [outlook, Prog.exec_ret, List.append_assoc, List.singleton_append]
      rfl
    | load i k =>
      simp only [step, hget, hset]
      exact ⟨_, rfl, rfl⟩
    | store i v k =>
      simp only [step, hget, hset]
      refine ⟨_, rfl, ?_⟩
      simp only [outlook, mem_update, Prog.exec_store]

theorem outlook_run (n : Nat) : ∀ {σ : Machine C L V R}
    {w : Worker C L V R}, σ.workers = [w] →
      ∃ w', ((List.replicate n (0, false)).foldl rd.step σ).workers = [w'] ∧
        rd.outlook ((List.replicate n (0, false)).foldl rd.step σ) w' = rd.outlook σ w := by
  induction n with
  | zero => intro σ w hw; exact ⟨w, hw, rfl⟩
  | succ n ih =>
    intro σ w hw
    obtain ⟨w₁, hw₁, hout⟩ := rd.outlook_step hw
    obtain ⟨w', hw', hrest⟩ := ih hw₁
    exact ⟨w', hw', hrest.trans hout⟩

/-- Run lemma: a round that one worker finishes has executed the tasks in order. -/
theorem run_solo {n : Nat} {start fin : L → V} {logs : List (List (C × R))}
    (h : rd.run 1 start (List.replicate n (0, false)) = some (fin, logs)) :
    fin = (rd.execAll rd.cands start).2 ∧ logs = [(rd.execAll rd.cands start).1] := by
  have hinit : (init 1 start : Machine C L V R).workers = [.fetching []] := rfl
  obtain ⟨w', hw', hout⟩ := rd.outlook_run n hinit
  simp only [run, hw'] at h
  split at h
  · next hwait =>
    cases w' with
    | waiting log =>
      cases h
      simp only [outlook, init, List.drop_zero, List.nil_append] at hout
      refine ⟨(congrArg Prod.snd hout), ?_⟩
      rw [List.map_singleton]
      exact congrArg (fun l => [l]) (congrArg Prod.fst hout)
    | _ => cases hwait
  · cases h

end Round

end Async
