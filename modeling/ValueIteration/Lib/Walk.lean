import Mathlib.Algebra.Order.BigOperators.Group.Finset
import Mathlib.Data.List.Chain
import Mathlib.Data.Multiset.Basic

/-!
# Walks that count their visits

A partial move is followed until it is no longer defined, until a place would be left more
often than allowed, or until the moves are used up.
-/

set_option autoImplicit false

namespace Walk

variable {σ κ : Type} [DecidableEq κ]

inductive Halt where
  | stopped
  | revisited
  | exhausted
  deriving DecidableEq, Repr

/-- The states left behind, the one the walk ends in, and why it ends. -/
structure Result (σ : Type) where
  left : List σ
  last : σ
  halt : Halt

/-- All states of the walk. -/
def Result.track (r : Result σ) : List σ := r.left ++ [r.last]

/-- Count one more visit. -/
def visit (visits : κ → Nat) (c : κ) : κ → Nat := Function.update visits c (visits c + 1)

def follow (place : σ → κ) (next : σ → Option σ) (limit : Nat) :
    Nat → σ → (κ → Nat) → Result σ
  | 0, s, _ => ⟨[], s, .exhausted⟩
  | n + 1, s, visits =>
    match next s with
    | none => ⟨[], s, .stopped⟩
    | some t =>
      if limit < visit visits (place s) (place s) then ⟨[], s, .revisited⟩
      else
        let r := follow place next limit n t (visit visits (place s))
        ⟨s :: r.left, r.last, r.halt⟩

section
variable {place : σ → κ} {next : σ → Option σ} {limit : Nat}

@[simp] theorem visit_self (visits : κ → Nat) (c : κ) : visit visits c c = visits c + 1 :=
  Function.update_self ..

theorem visit_eq (visits : κ → Nat) (c d : κ) :
    visit visits c d = visits d + if c = d then 1 else 0 := by
  by_cases h : c = d
  · subst h
    simp
  · rw [visit, Function.update_of_ne (Ne.symm h), if_neg h, Nat.add_zero]

/-- The first state is the one the walk starts in. -/
theorem head_track_follow (n : Nat) (s : σ) (visits : κ → Nat) :
    (follow place next limit n s visits).track.head? = some s := by
  cases n with
  | zero => rfl
  | succ n =>
    rw [follow]
    split
    · rfl
    · split <;> rfl

/-- Every state is the move of the one before it. -/
theorem isChain_follow (n : Nat) (s : σ) (visits : κ → Nat) :
    List.IsChain (fun a b => next a = some b) (follow place next limit n s visits).track := by
  induction n generalizing s visits with
  | zero => exact List.isChain_singleton _
  | succ n ih =>
    rw [follow]
    split
    · exact List.isChain_singleton _
    · next t ht =>
      split
      · exact List.isChain_singleton _
      · rw [Result.track, List.cons_append, List.isChain_cons]
        constructor
        · intro y hy
          have hhead : (follow place next limit n t _).track.head? = some t :=
            head_track_follow n t (visit visits (place s))
          rw [Result.track] at hhead
          rw [hhead] at hy
          obtain rfl : t = y := by simpa using hy
          exact ht
        · exact ih t _

theorem length_left_follow (n : Nat) (s : σ) (visits : κ → Nat) :
    (follow place next limit n s visits).left.length ≤ n := by
  induction n generalizing s visits with
  | zero => exact Nat.le_refl 0
  | succ n ih =>
    rw [follow]
    split
    · exact Nat.zero_le _
    · split
      · exact Nat.zero_le _
      · exact Nat.succ_le_succ (ih _ _)

/-- No place is left more often than allowed. -/
theorem count_left_follow (n : Nat) (s : σ) {visits : κ → Nat} (hv : ∀ c, visits c ≤ limit)
    (c : κ) :
    visits c + ((follow place next limit n s visits).left.map place).count c ≤ limit := by
  induction n generalizing s visits with
  | zero => simpa [follow] using hv c
  | succ n ih =>
    rw [follow]
    split
    · simpa using hv c
    · next t ht =>
      split
      · simpa using hv c
      · next hle =>
        have hvisit : ∀ d, visit visits (place s) d ≤ limit := by
          intro d
          by_cases hd : place s = d
          · subst hd
            omega
          · rw [visit_eq, if_neg hd]
            exact hv d
        have hrest := ih t hvisit
        rw [visit_eq] at hrest
        rw [List.map_cons, List.count_cons]
        simp only [beq_iff_eq]
        omega

/-- What the way a walk ends says about the state it ends in. -/
def Result.Ended (place : σ → κ) (next : σ → Option σ) (limit n : Nat) (visits : κ → Nat)
    (r : Result σ) : Prop :=
  match r.halt with
  | .stopped => next r.last = none
  | .revisited => next r.last ≠ none ∧
      limit ≤ visits (place r.last) + (r.left.map place).count (place r.last)
  | .exhausted => r.left.length = n

/-- One more state in front, whose place the remaining walk has counted already. -/
theorem Result.Ended.cons {n : Nat} {visits : κ → Nat} {r : Result σ} (s : σ)
    (h : r.Ended place next limit n (visit visits (place s))) :
    Result.Ended place next limit (n + 1) visits ⟨s :: r.left, r.last, r.halt⟩ := by
  obtain ⟨left, last, halt⟩ := r
  cases halt with
  | stopped => exact h
  | revisited =>
    obtain ⟨hnext, hcount⟩ := h
    refine ⟨hnext, ?_⟩
    simp only [visit_eq] at hcount
    simp only [List.map_cons, List.count_cons, beq_iff_eq]
    omega
  | exhausted => exact congrArg (· + 1) h

theorem ended_follow (n : Nat) (s : σ) (visits : κ → Nat) :
    (follow place next limit n s visits).Ended place next limit n visits := by
  induction n generalizing s visits with
  | zero => rfl
  | succ n ih =>
    rw [follow]
    split
    · assumption
    · next t ht =>
      split
      · next hlt =>
        rw [visit_self] at hlt
        exact ⟨by rw [ht]; exact Option.some_ne_none t, Nat.le_of_lt_succ hlt⟩
      · exact (ih t _).cons s

/-- A state that is left has a move. -/
theorem next_ne_none_of_mem_left {n : Nat} {s a : σ} {visits : κ → Nat}
    (ha : a ∈ (follow place next limit n s visits).left) : next a ≠ none := by
  induction n generalizing s visits with
  | zero => cases ha
  | succ n ih =>
    rw [follow] at ha
    split at ha
    · cases ha
    · next t ht =>
      split at ha
      · cases ha
      · rcases List.mem_cons.mp ha with rfl | hrest
        · rw [ht]
          exact Option.some_ne_none t
        · exact ih hrest

/-- A list in which nothing occurs more than `limit` times is no longer than `limit`
times the number of its possible elements. -/
theorem length_le_of_count_le {xs keys : List κ} (hmem : ∀ c ∈ xs, c ∈ keys)
    (hcount : ∀ c, xs.count c ≤ limit) : xs.length ≤ keys.length * limit := by
  have hsub : xs.toFinset ⊆ keys.toFinset := by
    intro c hc
    exact List.mem_toFinset.mpr (hmem c (List.mem_toFinset.mp hc))
  calc xs.length = ∑ c ∈ xs.toFinset, xs.count c := by
        rw [← Multiset.coe_card, ← Multiset.toFinset_sum_count_eq]
        simp only [Multiset.coe_count, List.toFinset_coe]
    _ ≤ xs.toFinset.card * limit := Finset.sum_le_card_nsmul _ _ _ fun c _ => hcount c
    _ ≤ keys.length * limit :=
      Nat.mul_le_mul_right _ ((Finset.card_le_card hsub).trans (List.toFinset_card_le keys))

/-- With finitely many places to leave, a walk of many moves does not run out of them. -/
theorem not_exhausted_follow {n : Nat} (s : σ) {keys : List κ}
    (hkeys : ∀ a, next a ≠ none → place a ∈ keys) (hn : keys.length * limit < n) :
    (follow place next limit n s fun _ => 0).halt ≠ .exhausted := by
  intro hex
  have hend : (follow place next limit n s fun _ => 0).Ended place next limit n _ :=
    ended_follow n s _
  have hlen : (follow place next limit n s fun _ => 0).left.length = n := by
    rw [Result.Ended, hex] at hend
    exact hend
  have hmem : ∀ c ∈ (follow place next limit n s fun _ => 0).left.map place, c ∈ keys := by
    intro c hc
    obtain ⟨a, ha, rfl⟩ := List.mem_map.mp hc
    exact hkeys a (next_ne_none_of_mem_left ha)
  have hcount : ∀ c, ((follow place next limit n s fun _ => 0).left.map place).count c ≤ limit := by
    intro c
    have h : 0 + ((follow place next limit n s fun _ => 0).left.map place).count c ≤ limit :=
      count_left_follow n s (fun _ => Nat.zero_le limit) c
    omega
  have hle := length_le_of_count_le hmem hcount
  rw [List.length_map, hlen] at hle
  omega

end

end Walk
