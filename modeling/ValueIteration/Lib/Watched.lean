import Mathlib.Data.Option.Basic
import Mathlib.Tactic.Common

/-!
# Work in rounds with someone watching

A machine works in rounds: a round fails, ends the work or leaves a state for the next
one, and the rounds may run out. A watcher is asked now and then, between two rounds,
whether to go on. What it sees and how often it is asked change nothing until it says no;
then the state it was shown is the one an unwatched machine reaches in as many rounds.
-/

set_option autoImplicit false

namespace Watched

variable {σ ρ π ε : Type}

/-- `round` is `none` for a failure; `spent` is the result when no round is left. -/
structure Machine (σ ρ : Type) where
  round : σ → Option (ρ ⊕ σ)
  spent : σ → ρ

/-- After which rounds the watcher is asked, and its answer: a reason to leave or none.
`asks` is given the number of rounds that are left. -/
structure Watcher (σ π ε : Type) where
  asks : Nat → σ → Bool
  due : π → σ → Bool
  reserve : π → σ → π
  answer : σ → Option ε

/-- The work came to its end, or the watcher put an end to it. -/
inductive Ending (σ ρ ε : Type) where
  | ended (r : ρ)
  | left (e : ε) (s : σ)

namespace Machine

variable (m : Machine σ ρ)

/-- The rounds without a watcher. -/
def solo : Nat → σ → Option ρ
  | 0, s => some (m.spent s)
  | n + 1, s =>
    match m.round s with
    | none => none
    | some (.inl r) => some r
    | some (.inr t) => solo n t

/-- The state that `k` rounds leave. -/
def orbit : Nat → σ → Option σ
  | 0, s => some s
  | k + 1, s =>
    match m.round s with
    | some (.inr t) => orbit k t
    | _ => none

/-- The rounds under the eyes of a watcher whose timer stands at `p`. -/
def watched (w : Watcher σ π ε) : Nat → π → σ → Option (Ending σ ρ ε)
  | 0, _, s => some (.ended (m.spent s))
  | n + 1, p, s =>
    match m.round s with
    | none => none
    | some (.inl r) => some (.ended r)
    | some (.inr t) =>
      if w.asks n t && w.due p t then
        match w.answer t with
        | none => watched w n (w.reserve p t) t
        | some e => some (.left e t)
      else watched w n p t

variable {m} {w : Watcher σ π ε}

theorem watched_fail {n : Nat} {p : π} {s : σ} (h : m.round s = none) :
    m.watched w (n + 1) p s = none := by
  rw [watched, h]

theorem watched_done {n : Nat} {p : π} {s : σ} {r : ρ} (h : m.round s = some (.inl r)) :
    m.watched w (n + 1) p s = some (.ended r) := by
  rw [watched, h]

theorem watched_pass {n : Nat} {p : π} {s t : σ} (h : m.round s = some (.inr t))
    (hask : (w.asks n t && w.due p t) = false) :
    m.watched w (n + 1) p s = m.watched w n p t := by
  rw [watched, h]
  simp only [hask, Bool.false_eq_true, if_false]

theorem watched_proceed {n : Nat} {p : π} {s t : σ} (h : m.round s = some (.inr t))
    (hask : (w.asks n t && w.due p t) = true) (hans : w.answer t = none) :
    m.watched w (n + 1) p s = m.watched w n (w.reserve p t) t := by
  rw [watched, h]
  simp only [hask, if_true, hans]

theorem watched_leave {n : Nat} {p : π} {s t : σ} {e : ε} (h : m.round s = some (.inr t))
    (hask : (w.asks n t && w.due p t) = true) (hans : w.answer t = some e) :
    m.watched w (n + 1) p s = some (.left e t) := by
  rw [watched, h]
  simp only [hask, if_true, hans]

/-- A machine that is given just the rounds it has made hands over the state it is in. -/
theorem solo_of_orbit : ∀ {k : Nat} {s t : σ}, m.orbit k s = some t →
    m.solo k s = some (m.spent t) := by
  intro k
  induction k with
  | zero =>
    intro s t h
    cases h
    rfl
  | succ k ih =>
    intro s t h
    rw [orbit] at h
    split at h
    · next u hu =>
      rw [solo, hu]
      exact ih h
    · cases h

/-- What a watched run says about the unwatched one. -/
def Tells (m : Machine σ ρ) (w : Watcher σ π ε) (n : Nat) (s : σ) :
    Option (Ending σ ρ ε) → Prop
  | none => m.solo n s = none
  | some (.ended r) => m.solo n s = some r
  | some (.left e t) => w.answer t = some e ∧ ∃ k, k < n ∧ m.orbit (k + 1) s = some t

/-- A run after one more round. -/
theorem Tells.of_round {n : Nat} {s t : σ} {o : Option (Ending σ ρ ε)}
    (h : m.round s = some (.inr t)) (hrest : Tells m w n t o) : Tells m w (n + 1) s o := by
  have hsolo : m.solo (n + 1) s = m.solo n t := by rw [solo, h]
  cases o with
  | none => exact hsolo.trans hrest
  | some end_ =>
    cases end_ with
    | ended r => exact hsolo.trans hrest
    | left e u =>
      obtain ⟨hans, k, hk, horbit⟩ := hrest
      refine ⟨hans, k + 1, Nat.succ_lt_succ hk, ?_⟩
      rw [orbit, h]
      exact horbit

theorem watched_tells (n : Nat) : ∀ (p : π) (s : σ), Tells m w n s (m.watched w n p s) := by
  induction n with
  | zero => intro p s; rfl
  | succ n ih =>
    intro p s
    rw [watched]
    split
    · next h => rw [Tells, solo, h]
    · next r h => rw [Tells, solo, h]
    · next t h =>
      split
      · split
        · exact (ih _ t).of_round h
        · next e he =>
          refine ⟨he, 0, Nat.zero_lt_succ n, ?_⟩
          rw [orbit, h]
          rfl
      · exact (ih p t).of_round h

/-- What grows by one in every round counts the rounds. -/
theorem orbit_count {f : σ → Nat} (hf : ∀ s t, m.round s = some (.inr t) → f t = f s + 1) :
    ∀ {k : Nat} {s t : σ}, m.orbit k s = some t → f t = f s + k := by
  intro k
  induction k with
  | zero =>
    intro s t h
    cases h
    rfl
  | succ k ih =>
    intro s t h
    rw [orbit] at h
    split at h
    · next u hu =>
      rw [ih h, hf s u hu]
      omega
    · cases h

end Machine

end Watched
