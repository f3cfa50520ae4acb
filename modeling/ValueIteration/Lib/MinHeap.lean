import Mathlib.Data.List.Sort
import Mathlib.Data.Prod.Lex

/-!
# Priority queues as sorted lists

What a binary heap of a linear order shows to its user: `pop` takes a least entry.
Entries may repeat.
-/

set_option autoImplicit false

structure MinHeap (α : Type) [LinearOrder α] where
  entries : List α
  sorted : entries.Pairwise (· ≤ ·)

namespace MinHeap

variable {α : Type} [LinearOrder α]

def empty : MinHeap α := ⟨[], List.Pairwise.nil⟩

def push (h : MinHeap α) (a : α) : MinHeap α :=
  ⟨h.entries.orderedInsert (· ≤ ·) a, h.sorted.orderedInsert a _⟩

def pop (h : MinHeap α) : Option (α × MinHeap α) :=
  match h with
  | ⟨[], _⟩ => none
  | ⟨a :: rest, sorted⟩ => some (a, ⟨rest, sorted.tail⟩)

instance : Membership α (MinHeap α) := ⟨fun h a => a ∈ h.entries⟩

instance (a : α) (h : MinHeap α) : Decidable (a ∈ h) :=
  inferInstanceAs (Decidable (a ∈ h.entries))

@[simp] theorem not_mem_empty (a : α) : a ∉ (empty : MinHeap α) := List.not_mem_nil

@[simp] theorem mem_push {h : MinHeap α} {a b : α} : b ∈ h.push a ↔ b = a ∨ b ∈ h :=
  List.mem_orderedInsert _

theorem not_mem_of_pop_none {h : MinHeap α} (hpop : h.pop = none) (a : α) : a ∉ h := by
  obtain ⟨entries, sorted⟩ := h
  cases entries with
  | nil => exact List.not_mem_nil
  | cons b rest => cases hpop

theorem mem_iff_of_pop {h rest : MinHeap α} {a : α} (hpop : h.pop = some (a, rest)) {b : α} :
    b ∈ h ↔ b = a ∨ b ∈ rest := by
  obtain ⟨entries, sorted⟩ := h
  cases entries with
  | nil => cases hpop
  | cons c cs =>
    simp only [pop, Option.some.injEq, Prod.mk.injEq] at hpop
    obtain ⟨rfl, rfl⟩ := hpop
    exact List.mem_cons

/-- What is popped is least. -/
theorem le_of_pop {h rest : MinHeap α} {a b : α} (hpop : h.pop = some (a, rest)) (hb : b ∈ h) :
    a ≤ b := by
  obtain ⟨entries, sorted⟩ := h
  cases entries with
  | nil => cases hpop
  | cons c cs =>
    simp only [pop, Option.some.injEq, Prod.mk.injEq] at hpop
    obtain ⟨rfl, rfl⟩ := hpop
    rcases List.mem_cons.mp hb with rfl | hb
    · exact le_refl _
    · exact List.rel_of_pairwise_cons sorted hb

theorem length_push (h : MinHeap α) (a : α) :
    (h.push a).entries.length = h.entries.length + 1 := List.orderedInsert_length _ _ _

theorem length_of_pop {h rest : MinHeap α} {a : α} (hpop : h.pop = some (a, rest)) :
    h.entries.length = rest.entries.length + 1 := by
  obtain ⟨entries, sorted⟩ := h
  cases entries with
  | nil => cases hpop
  | cons c cs =>
    simp only [pop, Option.some.injEq, Prod.mk.injEq] at hpop
    obtain ⟨-, rfl⟩ := hpop
    rfl

end MinHeap
