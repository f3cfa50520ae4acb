import Mathlib.Logic.Function.Basic
import Mathlib.Data.List.Basic

/-!
# Straight-line workers over one shared memory

Each worker executes its own list of instructions in order. A schedule says whose turn it
is; between two turns of a worker the others may do anything.
-/

set_option autoImplicit false

/-- The shared memory, the private state of each worker and what it has still to execute. -/
structure Crew (ι I C M : Type) where
  mem : M
  state : ι → C
  rest : ι → List I

namespace Crew

variable {ι I C M : Type} [DecidableEq ι] (exec : I → C × M → C × M)

/-- Worker `i` executes its next instruction, if it has one. -/
def tick (σ : Crew ι I C M) (i : ι) : Crew ι I C M :=
  match σ.rest i with
  | [] => σ
  | op :: ops =>
    let r := exec op (σ.state i, σ.mem)
    ⟨r.2, Function.update σ.state i r.1, Function.update σ.rest i ops⟩

def run (sched : List ι) (σ : Crew ι I C M) : Crew ι I C M := sched.foldl (tick exec) σ

def Finished (σ : Crew ι I C M) : Prop := ∀ i, σ.rest i = []

/-- A list of instructions executed with nobody else at work. -/
def alone (ops : List I) (s : C × M) : C × M := ops.foldl (fun s op => exec op s) s

@[simp] theorem run_nil (σ : Crew ι I C M) : run exec [] σ = σ := rfl

@[simp] theorem run_cons (i : ι) (sched : List ι) (σ : Crew ι I C M) :
    run exec (i :: sched) σ = run exec sched (tick exec σ i) := rfl

theorem run_append (s t : List ι) (σ : Crew ι I C M) :
    run exec (s ++ t) σ = run exec t (run exec s σ) := List.foldl_append

variable {exec}

/-- What every turn keeps holds after every schedule. -/
theorem run_induction {P : Crew ι I C M → Prop}
    (hstep : ∀ σ i, P σ → P (tick exec σ i)) (sched : List ι) :
    ∀ σ, P σ → P (run exec sched σ) := by
  induction sched with
  | nil => intro σ h; exact h
  | cons i sched ih => intro σ h; exact ih _ (hstep σ i h)

theorem tick_of_nil {σ : Crew ι I C M} {i : ι} (h : σ.rest i = []) : tick exec σ i = σ := by
  simp only [tick, h]

theorem tick_of_cons {σ : Crew ι I C M} {i : ι} {op : I} {ops : List I}
    (h : σ.rest i = op :: ops) :
    tick exec σ i = ⟨(exec op (σ.state i, σ.mem)).2,
      Function.update σ.state i (exec op (σ.state i, σ.mem)).1,
      Function.update σ.rest i ops⟩ := by
  simp only [tick, h]

/-- One worker going on by itself. -/
theorem rest_run_replicate (n : Nat) (i j : ι) : ∀ σ : Crew ι I C M,
    (run exec (List.replicate n i) σ).rest j =
      if j = i then (σ.rest i).drop n else σ.rest j := by
  induction n with
  | zero =>
    intro σ
    by_cases hj : j = i
    · simp [hj]
    · simp [hj]
  | succ n ih =>
    intro σ
    rw [List.replicate_succ, run_cons, ih]
    cases hrest : σ.rest i with
    | nil =>
      rw [tick_of_nil hrest, hrest]
      simp
    | cons op ops =>
      rw [tick_of_cons hrest]
      by_cases hj : j = i
      · simp [hj]
      · simp [hj]

/-- A worker that goes on to its end works as if it were alone. -/
theorem run_to_end (i : ι) (ops : List I) : ∀ σ : Crew ι I C M, σ.rest i = ops →
    run exec (List.replicate ops.length i) σ =
      ⟨(alone exec ops (σ.state i, σ.mem)).2,
        Function.update σ.state i (alone exec ops (σ.state i, σ.mem)).1,
        Function.update σ.rest i []⟩ := by
  induction ops with
  | nil =>
    intro σ hrest
    obtain ⟨mem, state, rest⟩ := σ
    simp only at hrest
    show (⟨mem, state, rest⟩ : Crew ι I C M) = ⟨mem, Function.update state i (state i), _⟩
    rw [Function.update_eq_self, ← hrest, Function.update_eq_self]
  | cons op ops ih =>
    intro σ hrest
    rw [List.length_cons, List.replicate_succ, run_cons, tick_of_cons hrest,
      ih _ (Function.update_self _ _ _)]
    simp only [Function.update_self, Function.update_idem]
    rfl

@[simp] theorem alone_nil (s : C × M) : alone exec [] s = s := rfl

@[simp] theorem alone_cons (op : I) (ops : List I) (s : C × M) :
    alone exec (op :: ops) s = alone exec ops (exec op s) := rfl

theorem alone_append (p q : List I) (s : C × M) :
    alone exec (p ++ q) s = alone exec q (alone exec p s) := List.foldl_append

end Crew

/-- How a memory is read and written. -/
structure Port (M A W : Type) where
  get : M → A → W
  set : M → A → W → M

/-- One instruction: on the private state alone, or with one word of the memory. -/
inductive Instr (A W C : Type) where
  | step (f : C → C)
  | load (a : A) (f : W → C → C)
  | store (a : A) (f : C → W)

namespace Instr

variable {A W C M : Type}

def exec (port : Port M A W) : Instr A W C → C × M → C × M
  | step f, s => (f s.1, s.2)
  | load a f, s => (f (port.get s.2 a) s.1, s.2)
  | store a f, s => (s.1, port.set s.2 a (f s.1))

end Instr

namespace Port

variable {M A W : Type} [DecidableEq A]

/-- Reads and writes meet at the addresses of `ok`, on the memories of `mok`. -/
structure Lawful (port : Port M A W) (mok : M → Prop) (ok : A → Prop) : Prop where
  keeps : ∀ {m a w}, mok m → ok a → mok (port.set m a w)
  get_set : ∀ {m a b w}, mok m → ok a → ok b →
    port.get (port.set m a w) b = if b = a then w else port.get m b

end Port
