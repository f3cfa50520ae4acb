import Mathlib.Algebra.Ring.Nat
import Mathlib.Data.List.Basic
import Mathlib.Data.List.Count

/-!
# Counting sort

Items are counted by key, prefix sums give the first place of every key, and each item goes
to the place its key has reached. The places of one key then hold the items with that key,
in their order.
-/

set_option autoImplicit false

namespace CountingSort

variable {α : Type}

/-- How often each key occurs. -/
def counts (n : Nat) (keys : List Nat) : List Nat :=
  keys.foldl (fun cs b => cs.set b (cs.getD b 0 + 1)) (List.replicate n 0)

def prefixSums (s : Nat) : List Nat → List Nat
  | [] => [s]
  | c :: cs => s :: prefixSums (s + c) cs

/-- The prefix sums of the counts. -/
def starts (n : Nat) (keys : List Nat) : List Nat := prefixSums 0 (counts n keys)

/-- The order being filled and the place that each key has reached. -/
structure Filling (α : Type) where
  order : List α
  fill : List Nat

def put (f : Filling α) (e : α × Nat) : Filling α :=
  ⟨f.order.set (f.fill.getD e.2 0) e.1, f.fill.set e.2 (f.fill.getD e.2 0 + 1)⟩

/-- The sorted order; `room` is what stood there before. -/
def sort (key : α → Nat) (n : Nat) (room xs : List α) : List α :=
  ((xs.zip (xs.map key)).foldl put ⟨room, starts n (xs.map key)⟩).order

/-- The places between two prefix sums. -/
def slice (order : List α) (starts : List Nat) (b : Nat) : List α :=
  (order.drop (starts.getD b 0)).take (starts.getD (b + 1) 0 - starts.getD b 0)

/-- How many items have a key below `b`. -/
def below (key : α → Nat) (xs : List α) (b : Nat) : Nat := xs.countP fun x => key x < b

variable {key : α → Nat} {n : Nat}

theorem length_counts (keys : List Nat) : (counts n keys).length = n := by
  have hfold : ∀ cs : List Nat,
      (keys.foldl (fun cs b => cs.set b (cs.getD b 0 + 1)) cs).length = cs.length := by
    induction keys with
    | nil => exact fun _ => rfl
    | cons b keys ih =>
      intro cs
      rw [List.foldl_cons, ih, List.length_set]
  rw [counts, hfold, List.length_replicate]

theorem getD_set {β : Type} (l : List β) (i j : Nat) (v d : β) :
    (l.set i v).getD j d = if i = j ∧ i < l.length then v else l.getD j d := by
  rw [List.getD_eq_getElem?_getD, List.getD_eq_getElem?_getD, List.getElem?_set]
  by_cases hij : i = j
  · subst hij
    by_cases hi : i < l.length
    · rw [if_pos rfl, if_pos hi, if_pos ⟨rfl, hi⟩]
      rfl
    · rw [if_pos rfl, if_neg hi, if_neg fun h => hi h.2, List.getElem?_eq_none (by omega)]
  · rw [if_neg hij, if_neg fun h => hij h.1]

theorem counts_getD (keys : List Nat) {b : Nat} (hb : b < n) :
    (counts n keys).getD b 0 = keys.count b := by
  have hfold : ∀ cs : List Nat, b < cs.length →
      (keys.foldl (fun cs b => cs.set b (cs.getD b 0 + 1)) cs).getD b 0 =
        cs.getD b 0 + keys.count b := by
    induction keys with
    | nil => exact fun _ _ => rfl
    | cons c keys ih =>
      intro cs hlen
      rw [List.foldl_cons, ih _ (by rwa [List.length_set]), getD_set, List.count_cons]
      by_cases hc : c = b
      · subst hc
        rw [if_pos ⟨rfl, hlen⟩, if_pos (beq_self_eq_true c)]
        omega
      · rw [if_neg fun h => hc h.1, if_neg (by simpa using hc), Nat.add_zero]
  rw [counts, hfold _ (by rwa [List.length_replicate]), List.getD_eq_getElem?_getD,
    List.getElem?_replicate, if_pos hb, Option.getD_some, Nat.zero_add]

theorem below_succ (key : α → Nat) (xs : List α) (b : Nat) :
    below key xs (b + 1) = below key xs b + (xs.map key).count b := by
  induction xs with
  | nil => rfl
  | cons x xs ih =>
    simp only [below, List.countP_cons, List.map_cons, List.count_cons, decide_eq_true_eq,
      beq_iff_eq] at ih ⊢
    split <;> split <;> split <;> omega

theorem below_mono (key : α → Nat) (xs : List α) {b c : Nat} (h : b ≤ c) :
    below key xs b ≤ below key xs c := by
  apply List.countP_mono_left
  intro x _ hx
  simp only [decide_eq_true_eq] at hx ⊢
  omega

theorem below_le_length (key : α → Nat) (xs : List α) (b : Nat) :
    below key xs b ≤ xs.length := List.countP_le_length

theorem prefixSums_getD (cs : List Nat) : ∀ (s b : Nat), b ≤ cs.length →
    (prefixSums s cs).getD b 0 = s + (cs.take b).sum := by
  induction cs with
  | nil =>
    intro s b hb
    obtain rfl : b = 0 := Nat.le_zero.mp hb
    rfl
  | cons c cs ih =>
    intro s b hb
    cases b with
    | zero => rfl
    | succ b =>
      have hrest := ih (s + c) b (Nat.le_of_succ_le_succ hb)
      rw [prefixSums, List.getD_cons_succ, hrest, List.take_succ_cons, List.sum_cons]
      omega

theorem length_prefixSums (cs : List Nat) : ∀ s, (prefixSums s cs).length = cs.length + 1 := by
  induction cs with
  | nil => exact fun _ => rfl
  | cons c cs ih => exact fun s => congrArg (· + 1) (ih (s + c))

theorem sum_take_counts (key : α → Nat) (xs : List α) {b : Nat} (hb : b ≤ n) :
    ((counts n (xs.map key)).take b).sum = below key xs b := by
  induction b with
  | zero => simp [below]
  | succ b ih =>
    have hlt : b < (counts n (xs.map key)).length := by
      rw [length_counts]
      omega
    have hget := counts_getD (n := n) (xs.map key) (b := b) (by omega)
    rw [List.getD_eq_getElem?_getD, List.getElem?_eq_getElem hlt, Option.getD_some] at hget
    rw [List.take_succ_eq_append_getElem hlt, List.sum_append, ih (by omega), hget, below_succ,
      List.sum_singleton]

theorem starts_getD (key : α → Nat) (xs : List α) {b : Nat} (hb : b ≤ n) :
    (starts n (xs.map key)).getD b 0 = below key xs b := by
  rw [starts, prefixSums_getD _ _ _ (by rwa [length_counts]), Nat.zero_add,
    sum_take_counts key xs hb]

theorem length_starts (keys : List Nat) : (starts n keys).length = n + 1 := by
  rw [starts, length_prefixSums, length_counts]

section Filling

variable {room xs : List α}

/-- The filling after the items `ys`: a key has reached the place after its last item, and the
places before it hold its items in order. -/
structure Filled (key : α → Nat) (n : Nat) (xs ys : List α) (f : Filling α) : Prop where
  room : f.order.length = xs.length
  keys : f.fill.length = n + 1
  reached : ∀ b < n, f.fill.getD b 0 = below key xs b + (ys.filter (key · = b)).length
  placed : ∀ b < n, ∀ j, j < (ys.filter (key · = b)).length →
    f.order[below key xs b + j]? = (ys.filter (key · = b))[j]?

theorem count_map_eq (key : α → Nat) (xs : List α) (b : Nat) :
    (xs.map key).count b = (xs.filter (key · = b)).length := by
  rw [List.count, List.countP_map, List.countP_eq_length_filter]
  rfl

theorem Filled.start (hroom : room.length = xs.length) :
    Filled key n xs [] ⟨room, starts n (xs.map key)⟩ where
  room := hroom
  keys := length_starts _
  reached b hb := starts_getD key xs (by omega)
  placed _ _ _ hj := absurd hj (Nat.not_lt_zero _)

/-- Step lemma: the next item goes behind those with its key. -/
theorem Filled.put {ys zs : List α} {x : α} {f : Filling α} (hsplit : xs = ys ++ x :: zs)
    (hx : key x < n) (h : Filled key n xs ys f) :
    Filled key n xs (ys ++ [x]) (put f (x, key x)) := by
  have hcount : ∀ b, (ys.filter (key · = b)).length ≤ (xs.filter (key · = b)).length := by
    intro b
    rw [hsplit, List.filter_append, List.length_append]
    omega
  have hroom : (ys.filter (key · = key x)).length < (xs.filter (key · = key x)).length := by
    rw [hsplit, List.filter_append, List.length_append,
      List.filter_cons_of_pos (by simp), List.length_cons]
    omega
  have hnext : ∀ b, below key xs (b + 1) = below key xs b + (xs.filter (key · = b)).length := by
    intro b
    rw [below_succ, count_map_eq]
  have hlast := below_le_length key xs (key x + 1)
  have hplace := h.reached (key x) hx
  have hsame : (ys ++ [x]).filter (key · = key x) = ys.filter (key · = key x) ++ [x] := by
    rw [List.filter_append, List.filter_cons_of_pos (by simp), List.filter_nil]
  have hother : ∀ b, b ≠ key x → (ys ++ [x]).filter (key · = b) = ys.filter (key · = b) := by
    intro b hb
    rw [List.filter_append, List.filter_cons_of_neg (by simpa using Ne.symm hb), List.filter_nil,
      List.append_nil]
  refine ⟨?_, ?_, ?_, ?_⟩
  · exact List.length_set.trans h.room
  · exact List.length_set.trans h.keys
  · intro b hb
    simp only [CountingSort.put]
    rw [getD_set]
    by_cases hbx : b = key x
    · subst hbx
      rw [if_pos ⟨rfl, by rw [h.keys]; omega⟩, hplace, hsame, List.length_append]
      rfl
    · rw [if_neg fun hc => hbx hc.1.symm, h.reached b hb, hother b hbx]
  · intro b hb j hj
    simp only [CountingSort.put]
    rw [List.getElem?_set, hplace]
    by_cases hbx : b = key x
    · subst hbx
      rw [hsame, List.length_append] at hj
      rw [hsame]
      by_cases hlt : j < (ys.filter (key · = key x)).length
      · rw [if_neg (by omega), h.placed _ hb j hlt, List.getElem?_append_left hlt]
      · obtain rfl : j = (ys.filter (key · = key x)).length := by
          rw [List.length_singleton] at hj
          omega
        rw [if_pos rfl, if_pos (by rw [h.room]; have := hnext (key x); omega),
          List.getElem?_append_right (Nat.le_refl _), Nat.sub_self]
        rfl
    · rw [hother b hbx] at hj ⊢
      have hne : ¬ below key xs (key x) + (ys.filter (key · = key x)).length =
          below key xs b + j := by
        have h1 := hcount b
        have h2 := hnext b
        have h3 := hnext (key x)
        rcases Nat.lt_or_gt_of_ne hbx with hlt | hlt
        · have := below_mono key xs (show b + 1 ≤ key x from hlt)
          omega
        · have := below_mono key xs (show key x + 1 ≤ b from hlt)
          omega
      rw [if_neg hne, h.placed b hb j hj]

/-- Run lemma: all items are put. -/
theorem Filled.all (hkeys : ∀ x ∈ xs, key x < n) (zs : List α) : ∀ {ys : List α} {f : Filling α},
    xs = ys ++ zs → Filled key n xs ys f →
      Filled key n xs xs ((zs.zip (zs.map key)).foldl CountingSort.put f) := by
  induction zs with
  | nil =>
    intro ys f hsplit h
    obtain rfl : xs = ys := by rw [hsplit, List.append_nil]
    exact h
  | cons x zs ih =>
    intro ys f hsplit h
    have hx : key x < n := hkeys x (by rw [hsplit]; simp)
    have hnext : xs = (ys ++ [x]) ++ zs := by
      rw [hsplit, List.append_assoc]
      rfl
    exact ih hnext (h.put hsplit hx)

/-- The places of a key hold the items with that key, in their order. -/
theorem slice_sort (hkeys : ∀ x ∈ xs, key x < n) (hroom : room.length = xs.length) {b : Nat}
    (hb : b < n) : slice (sort key n room xs) (starts n (xs.map key)) b =
      xs.filter (key · = b) := by
  have h : Filled key n xs xs ((xs.zip (xs.map key)).foldl CountingSort.put
      ⟨room, starts n (xs.map key)⟩) := Filled.all hkeys xs rfl (Filled.start hroom)
  have hlen : below key xs (b + 1) = below key xs b + (xs.filter (key · = b)).length := by
    rw [below_succ, count_map_eq]
  rw [slice, starts_getD key xs (Nat.le_of_lt hb), starts_getD key xs hb, hlen,
    Nat.add_sub_cancel_left]
  apply List.ext_getElem?
  intro j
  rw [List.getElem?_take, List.getElem?_drop]
  split
  · next hj => exact h.placed b hb j hj
  · next hj => rw [List.getElem?_eq_none (by omega)]

/-- The keys that occur, each with its items. -/
def groups (key : α → Nat) (n : Nat) (room xs : List α) : List (List α) :=
  ((List.range n).filter fun b => (starts n (xs.map key)).getD b 0 <
    (starts n (xs.map key)).getD (b + 1) 0).map
      (slice (sort key n room xs) (starts n (xs.map key)))

theorem groups_eq (hkeys : ∀ x ∈ xs, key x < n) (hroom : room.length = xs.length) :
    groups key n room xs = ((List.range n).filter fun b => (xs.map key).contains b).map
      fun b => xs.filter (key · = b) := by
  have hoccurs : ∀ b ∈ List.range n, decide ((starts n (xs.map key)).getD b 0 <
      (starts n (xs.map key)).getD (b + 1) 0) = (xs.map key).contains b := by
    intro b hb
    have hlt := List.mem_range.mp hb
    rw [starts_getD key xs hlt, starts_getD key xs (Nat.le_of_lt hlt), below_succ,
      Bool.eq_iff_iff, decide_eq_true_eq, List.contains_iff_mem, ← List.count_pos_iff]
    omega
  rw [groups, List.filter_congr hoccurs]
  apply List.map_congr_left
  intro b hb
  exact slice_sort hkeys hroom (List.mem_range.mp (List.mem_filter.mp hb).1)

theorem flatMap_filter_range (key : α → Nat) (xs : List α) (n : Nat) :
    ((List.range n).flatMap fun b => xs.filter (key · = b)).Perm (xs.filter (key · < n)) := by
  induction n with
  | zero =>
    rw [List.range_zero, List.flatMap_nil, List.filter_eq_nil_iff.mpr (by simp)]
  | succ n ih =>
    have hbelow : (xs.filter (key · < n + 1)).filter (key · < n) = xs.filter (key · < n) := by
      rw [List.filter_filter]
      apply List.filter_congr
      intro x _
      rw [Bool.eq_iff_iff, Bool.and_eq_true, decide_eq_true_eq, decide_eq_true_eq]
      omega
    have hlast : (xs.filter (key · < n + 1)).filter (fun x => !decide (key x < n)) =
        xs.filter (key · = n) := by
      rw [List.filter_filter]
      apply List.filter_congr
      intro x _
      rw [Bool.eq_iff_iff, Bool.and_eq_true, Bool.not_eq_true', decide_eq_true_eq,
        decide_eq_true_eq, decide_eq_false_iff_not]
      omega
    have hsplit := List.filter_append_perm (fun x => decide (key x < n)) (xs.filter (key · < n + 1))
    rw [hbelow, hlast] at hsplit
    rw [List.range_succ, List.flatMap_append, List.flatMap_singleton]
    exact (ih.append_right _).trans hsplit

/-- Nothing is lost or doubled. -/
theorem groups_perm (hkeys : ∀ x ∈ xs, key x < n) (hroom : room.length = xs.length) :
    (groups key n room xs).flatten.Perm xs := by
  have hdrop : ∀ bs : List Nat, ((bs.filter fun b => (xs.map key).contains b).flatMap
      fun b => xs.filter (key · = b)) = bs.flatMap fun b => xs.filter (key · = b) := by
    intro bs
    induction bs with
    | nil => rfl
    | cons b bs ih =>
      by_cases hb : (xs.map key).contains b = true
      · rw [List.filter_cons_of_pos (by exact hb), List.flatMap_cons, List.flatMap_cons, ih]
      · have hnone : xs.filter (key · = b) = [] := by
          apply List.filter_eq_nil_iff.mpr
          intro x hx hkey
          apply hb
          rw [List.contains_iff_mem, ← of_decide_eq_true hkey]
          exact List.mem_map_of_mem hx
        rw [List.filter_cons_of_neg (by exact hb), List.flatMap_cons, hnone, ih, List.nil_append]
  rw [groups_eq hkeys hroom, ← List.flatMap_def, hdrop]
  refine (flatMap_filter_range key xs n).trans ?_
  rw [List.filter_eq_self.mpr fun x hx => decide_eq_true (hkeys x hx)]

end Filling

end CountingSort
