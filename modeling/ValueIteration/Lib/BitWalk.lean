import Mathlib.Data.BitVec
import Mathlib.Data.List.Flatten
import Mathlib.Data.List.Nodup

/-!
# Walking over the set bits of stored words

An iterator over the set bits of a sequence of words holds a position and what is left of
the word there. It takes the lowest bit, clears it with `word & (word - 1)`, and moves on to
the next word that is not zero. `Walk` is such an iterator over positions of any kind. It
yields the bits in the order in which its counters pass the words.
-/

set_option autoImplicit false

section Kernighan

theorem Nat.testBit_and_sub_one (j : Nat) : ∀ {n : Nat}, 0 < n →
    ((n &&& (n - 1)).testBit j = true ↔ n.testBit j = true ∧ ∃ i < j, n.testBit i = true) := by
  induction j with
  | zero =>
    intro n hn
    rw [Nat.testBit_and, Nat.testBit_zero, Nat.testBit_zero, Bool.and_eq_true,
      decide_eq_true_eq, decide_eq_true_eq]
    omega
  | succ j ih =>
    intro n hn
    rw [Nat.testBit_and, Nat.testBit_add_one, Nat.testBit_add_one, Bool.and_eq_true]
    rcases Nat.mod_two_eq_zero_or_one n with heven | hodd
    · have hhalf : (n - 1) / 2 = n / 2 - 1 := by omega
      have hbits : (∃ i < j + 1, n.testBit i = true) ↔ ∃ i < j, (n / 2).testBit i = true := by
        constructor
        · rintro ⟨i, hi, hb⟩
          cases i with
          | zero =>
            rw [Nat.testBit_zero, decide_eq_true_eq] at hb
            omega
          | succ i => exact ⟨i, by omega, (Nat.testBit_add_one n i) ▸ hb⟩
        · rintro ⟨i, hi, hb⟩
          exact ⟨i + 1, by omega, by rw [Nat.testBit_add_one]; exact hb⟩
      rw [hhalf, hbits, ← Bool.and_eq_true, ← Nat.testBit_and]
      exact ih (by omega)
    · have hhalf : (n - 1) / 2 = n / 2 := by omega
      have hlow : ∃ i < j + 1, n.testBit i = true := ⟨0, by omega, by simp [hodd]⟩
      rw [hhalf, and_self]
      exact ⟨fun h => ⟨h, hlow⟩, fun h => h.1⟩

variable {w : Nat}

/-- The number of trailing zeros. -/
def lowestBit (x : BitVec w) : Nat := ((List.range w).find? fun j => x.getLsbD j).getD w

def clearLowest (x : BitVec w) : BitVec w := x &&& (x - 1)

def setBits (x : BitVec w) : List Nat := (List.range w).filter fun j => x.getLsbD j

theorem toNat_sub_one {x : BitVec w} (hx : x ≠ 0) :
    0 < x.toNat ∧ (x - 1).toNat = x.toNat - 1 := by
  have hpos : 0 < x.toNat := Nat.pos_of_ne_zero fun h => hx (BitVec.eq_of_toNat_eq h)
  have hw : w ≠ 0 := by
    rintro rfl
    exact hx (Subsingleton.elim x 0)
  have hone : (1 : BitVec w).toNat = 1 := Nat.mod_eq_of_lt (Nat.one_lt_two_pow hw)
  have hlt := x.isLt
  have hsum : 2 ^ w - 1 + x.toNat = x.toNat - 1 + 2 ^ w := by omega
  refine ⟨hpos, ?_⟩
  rw [BitVec.toNat_sub, hone, hsum, Nat.add_mod_right, Nat.mod_eq_of_lt (by omega)]

theorem getLsbD_clearLowest (x : BitVec w) (j : Nat) : (clearLowest x).getLsbD j = true ↔
    x.getLsbD j = true ∧ ∃ i < j, x.getLsbD i = true := by
  by_cases hx : x = 0
  · subst hx
    simp [clearLowest]
  · obtain ⟨hpos, hone⟩ := toNat_sub_one hx
    have hbit := Nat.testBit_and_sub_one j hpos
    rw [clearLowest, BitVec.getLsbD, BitVec.toNat_and, hone]
    exact hbit

theorem mem_setBits {x : BitVec w} {j : Nat} : j ∈ setBits x ↔ x.getLsbD j = true := by
  rw [setBits, List.mem_filter, List.mem_range, and_iff_right_iff_imp]
  intro hbit
  by_contra hge
  rw [BitVec.getLsbD_of_ge x j (Nat.le_of_not_lt hge)] at hbit
  cases hbit

theorem setBits_zero : setBits (0 : BitVec w) = [] := by
  simp [setBits]

theorem setBits_eq_nil {x : BitVec w} : setBits x = [] ↔ x = 0 := by
  constructor
  · intro h
    apply BitVec.eq_of_getLsbD_eq
    intro i hi
    have hnot := List.filter_eq_nil_iff.mp h i (List.mem_range.mpr hi)
    simpa using hnot
  · rintro rfl
    exact setBits_zero

/-- One round of the loop takes the head of the list. -/
theorem setBits_eq_cons {x : BitVec w} (hx : x ≠ 0) :
    setBits x = lowestBit x :: setBits (clearLowest x) := by
  have hsome : ((List.range w).find? fun j => x.getLsbD j).isSome := by
    rw [List.find?_isSome]
    obtain ⟨j, hj⟩ := List.exists_mem_of_ne_nil _ (mt setBits_eq_nil.mp hx)
    obtain ⟨hmem, hbit⟩ := List.mem_filter.mp hj
    exact ⟨j, hmem, hbit⟩
  obtain ⟨k, hk⟩ := Option.isSome_iff_exists.mp hsome
  obtain ⟨hbit, low, high, hsplit, hlow⟩ := List.find?_eq_some_iff_append.mp hk
  have hsorted : (low ++ k :: high).Pairwise (· < ·) := hsplit ▸ List.pairwise_lt_range
  obtain ⟨_, hhigh, hcross⟩ := List.pairwise_append.mp hsorted
  have habove := (List.pairwise_cons.mp hhigh).1
  have hbelow : ∀ i < k, x.getLsbD i = false := by
    intro i hi
    by_cases hmem : i ∈ List.range w
    · rw [hsplit, List.mem_append, List.mem_cons] at hmem
      rcases hmem with hmem | rfl | hmem
      · simpa using hlow i hmem
      · omega
      · have := habove i hmem
        omega
    · exact BitVec.getLsbD_of_ge x i (by simpa using hmem)
  have hclear : ∀ j, (clearLowest x).getLsbD j = (x.getLsbD j && decide (k < j)) := by
    intro j
    rw [Bool.eq_iff_iff, getLsbD_clearLowest, Bool.and_eq_true, decide_eq_true_eq]
    constructor
    · rintro ⟨hj, i, hi, hb⟩
      refine ⟨hj, ?_⟩
      rcases Nat.lt_or_ge i k with hik | hik
      · rw [hbelow i hik] at hb
        cases hb
      · omega
    · rintro ⟨hj, hkj⟩
      exact ⟨hj, k, hkj, hbit⟩
  have hlownil : low.filter (fun j => x.getLsbD j) = [] :=
    List.filter_eq_nil_iff.mpr fun j hj => by simpa using hlow j hj
  have hlownil' : low.filter (fun j => (clearLowest x).getLsbD j) = [] :=
    List.filter_eq_nil_iff.mpr fun j hj => by
      rw [hclear]
      simpa using fun h => absurd h (by simpa using hlow j hj)
  have hrest : high.filter (fun j => (clearLowest x).getLsbD j) =
      high.filter fun j => x.getLsbD j := by
    apply List.filter_congr
    intro j hj
    rw [hclear, decide_eq_true (habove j hj), Bool.and_true]
  have hhead : (clearLowest x).getLsbD k = false := by
    rw [hclear]
    simp
  rw [setBits, setBits, lowestBit, hk, Option.getD_some, hsplit, List.filter_append,
    List.filter_append, hlownil, hlownil', List.nil_append, List.nil_append,
    List.filter_cons_of_pos hbit, List.filter_cons_of_neg (by rw [hhead]; decide), hrest]

theorem clearLowest_lt {x : BitVec w} (hx : x ≠ 0) : (clearLowest x).toNat < x.toNat := by
  obtain ⟨hpos, hone⟩ := toNat_sub_one hx
  rw [clearLowest, BitVec.toNat_and, hone]
  have hle : x.toNat &&& (x.toNat - 1) ≤ x.toNat - 1 := Nat.and_le_right
  omega

end Kernighan

/-- From `s` on the iterator yields the items of a list, and then nothing any more. -/
inductive Yields {σ α : Type} (next : σ → Option α × σ) : σ → List α → Prop
  | done {s s' : σ} : next s = (none, s') → next s' = (none, s') → Yields next s []
  | more {s s' : σ} {a : α} {as : List α} :
      next s = (some a, s') → Yields next s' as → Yields next s (a :: as)

/-- Words at positions. A step tells where the next word is, or that the counters ran out. -/
structure Walk (P : Type) (w : Nat) where
  load : P → BitVec w
  step : P → P × Bool
  past : P → Bool
  left : P → Nat
  left_step : ∀ p, (step p).2 = false → left (step p).1 < left p
  past_step : ∀ p, (step p).2 = true → past (step p).1 = true

namespace Walk

structure Cursor (P : Type) (w : Nat) where
  pos : P
  word : BitVec w

variable {P α : Type} {w : Nat} (W : Walk P w)

/-- On to the next word that is not zero. -/
def advance (p : P) : Cursor P w :=
  if _hend : (W.step p).2 = true then ⟨(W.step p).1, 0⟩
  else if W.load (W.step p).1 ≠ 0 then ⟨(W.step p).1, W.load (W.step p).1⟩
  else advance (W.step p).1
termination_by W.left p
decreasing_by exact W.left_step p (Bool.eq_false_iff.mpr _hend)

theorem left_advance (p : P) :
    W.past (W.advance p).pos = true ∨ W.left (W.advance p).pos < W.left p := by
  fun_induction advance W p with
  | case1 p hend => exact Or.inl (W.past_step p hend)
  | case2 p hend _ => exact Or.inr (W.left_step p (Bool.eq_false_iff.mpr hend))
  | case3 p hend _ ih =>
    rcases ih with hpast | hlt
    · exact Or.inl hpast
    · exact Or.inr (hlt.trans (W.left_step p (Bool.eq_false_iff.mpr hend)))

/-- Skip empty words; the flag tells whether there is a bit left. -/
def skip (c : Cursor P w) : Bool × Cursor P w :=
  if c.word ≠ 0 then (true, c)
  else if W.past c.pos then (false, c)
  else if _hpast : W.past (W.advance c.pos).pos then (false, W.advance c.pos)
  else skip (W.advance c.pos)
termination_by W.left c.pos
decreasing_by exact (W.left_advance c.pos).resolve_left _hpast

theorem skip_spec (c : Cursor P w) (hflag : (W.skip c).1 = true) :
    (W.skip c).2.word ≠ 0 ∧ ((W.skip c).2 = c ∨ W.left (W.skip c).2.pos < W.left c.pos) := by
  fun_induction skip W c with
  | case1 c hword => exact ⟨hword, Or.inl rfl⟩
  | case2 c _ _ => cases hflag
  | case3 c _ _ _ => cases hflag
  | case4 c _ _ hpast ih =>
    obtain ⟨hword, hpos⟩ := ih hflag
    have hlt := (W.left_advance c.pos).resolve_left hpast
    refine ⟨hword, Or.inr ?_⟩
    rcases hpos with heq | hlt'
    · rw [heq]
      exact hlt
    · exact hlt'.trans hlt

/-- The next bit for which there is an item. -/
def next (emit : P → Nat → Option α) (c : Cursor P w) : Option α × Cursor P w :=
  if _hflag : (W.skip c).1 = true then
    match emit (W.skip c).2.pos (lowestBit (W.skip c).2.word) with
    | some a => (some a, ⟨(W.skip c).2.pos, clearLowest (W.skip c).2.word⟩)
    | none => next emit ⟨(W.skip c).2.pos, clearLowest (W.skip c).2.word⟩
  else (none, (W.skip c).2)
termination_by (W.left c.pos, c.word.toNat)
decreasing_by
  obtain ⟨hword, hpos⟩ := W.skip_spec c _hflag
  rcases hpos with heq | hlt
  · rw [heq] at hword ⊢
    exact Prod.Lex.right _ (clearLowest_lt hword)
  · exact Prod.Lex.left _ _ hlt

/-- The words that the walk passes after the one at a position. -/
inductive Visits : P → List P → Prop
  | last {p q : P} : W.step p = (q, true) → Visits p []
  | more {p q : P} {ps : List P} :
      W.step p = (q, false) → W.past q = false → Visits q ps → Visits p (q :: ps)

/-- The cursor has nothing left, or it stands on a word and some more words follow. -/
def Stands (c : Cursor P w) (ps : List P) : Prop :=
  (W.past c.pos = true ∧ c.word = 0 ∧ ps = []) ∨ (W.past c.pos = false ∧ W.Visits c.pos ps)

/-- The items of a word. -/
def items (emit : P → Nat → Option α) (p : P) (word : BitVec w) : List α :=
  (setBits word).filterMap (emit p)

/-- What the iterator has yet to yield. -/
def remaining (emit : P → Nat → Option α) (c : Cursor P w) (ps : List P) : List α :=
  items emit c.pos c.word ++ ps.flatMap fun q => items emit q (W.load q)

variable {W} (emit : P → Nat → Option α)

@[simp] theorem items_zero (p : P) : items emit p (0 : BitVec w) = [] := by
  rw [items, setBits_zero, List.filterMap_nil]

theorem Visits.advance {p : P} {ps : List P} (h : W.Visits p ps) :
    ∃ ps', W.Stands (W.advance p) ps' ∧
      (ps.flatMap fun q => items emit q (W.load q)) = W.remaining emit (W.advance p) ps' ∧
      (W.past (W.advance p).pos = false → (W.advance p).word ≠ 0) := by
  induction h with
  | @last p q hstep =>
    have hpast : W.past q = true := by
      have h := W.past_step p (by rw [hstep])
      rwa [hstep] at h
    have heq : W.advance p = ⟨q, 0⟩ := by
      rw [Walk.advance, dif_pos (by rw [hstep]), hstep]
    rw [heq]
    refine ⟨[], Or.inl ⟨hpast, rfl, rfl⟩, ?_, ?_⟩
    · rw [remaining, items_zero]
      rfl
    · intro hin
      rw [hpast] at hin
      cases hin
  | @more p q ps hstep hin hvisits ih =>
    by_cases hload : W.load q = 0
    · have heq : W.advance p = W.advance q := by
        rw [Walk.advance, dif_neg (by rw [hstep]; exact Bool.false_ne_true), if_neg (by rw [hstep]; simpa using hload),
          hstep]
      rw [heq, List.flatMap_cons, hload, items_zero, List.nil_append]
      exact ih
    · have heq : W.advance p = ⟨q, W.load q⟩ := by
        rw [Walk.advance, dif_neg (by rw [hstep]; exact Bool.false_ne_true), if_pos (by rw [hstep]; exact hload), hstep]
      rw [heq]
      exact ⟨ps, Or.inr ⟨hin, hvisits⟩, rfl, fun _ => hload⟩

theorem Stands.skip {c : Cursor P w} {ps : List P} (h : W.Stands c ps) :
    ∃ ps', W.Stands (W.skip c).2 ps' ∧ W.remaining emit c ps = W.remaining emit (W.skip c).2 ps' ∧
      ((W.skip c).1 = false →
        W.past (W.skip c).2.pos = true ∧ (W.skip c).2.word = 0 ∧ ps' = []) := by
  have hfound : ∀ c : Cursor P w, c.word ≠ 0 → W.skip c = (true, c) := by
    intro c hword
    rw [Walk.skip, if_pos hword]
  by_cases hword : c.word = 0
  · rcases h with ⟨hpast, _, rfl⟩ | ⟨hin, hvisits⟩
    · have heq : W.skip c = (false, c) := by
        rw [Walk.skip, if_neg (not_not.mpr hword), if_pos hpast]
      rw [heq]
      exact ⟨[], Or.inl ⟨hpast, hword, rfl⟩, rfl, fun _ => ⟨hpast, hword, rfl⟩⟩
    · obtain ⟨ps', hstands, hitems, hnonzero⟩ := hvisits.advance emit
      have hrem : W.remaining emit c ps = W.remaining emit (W.advance c.pos) ps' := by
        rw [← hitems, remaining, hword, items_zero, List.nil_append]
      by_cases hpast : W.past (W.advance c.pos).pos = true
      · have heq : W.skip c = (false, W.advance c.pos) := by
          rw [Walk.skip, if_neg (not_not.mpr hword), if_neg (by rw [hin]; decide), dif_pos hpast]
        rw [heq]
        refine ⟨ps', hstands, hrem, fun _ => ?_⟩
        rcases hstands with hend | ⟨hin', _⟩
        · exact hend
        · rw [hpast] at hin'
          cases hin'
      · have heq : W.skip c = (true, W.advance c.pos) := by
          rw [Walk.skip, if_neg (not_not.mpr hword), if_neg (by rw [hin]; decide), dif_neg hpast]
          exact hfound _ (hnonzero (Bool.eq_false_iff.mpr hpast))
        rw [heq]
        exact ⟨ps', hstands, hrem, fun h => by cases h⟩
  · rw [hfound c hword]
    exact ⟨ps, h, rfl, fun h => by cases h⟩

/-- One call of `next` takes the head of what remains. -/
theorem Stands.next (c : Cursor P w) : ∀ {ps : List P}, W.Stands c ps →
    match W.next emit c with
    | (none, c') => W.remaining emit c ps = [] ∧ W.next emit c' = (none, c')
    | (some a, c') =>
      ∃ ps', W.Stands c' ps' ∧ W.remaining emit c ps = a :: W.remaining emit c' ps' := by
  have hclear : ∀ {c : Cursor P w} {ps : List P}, W.Stands c ps → c.word ≠ 0 →
      W.Stands ⟨c.pos, clearLowest c.word⟩ ps := by
    rintro c ps (⟨_, hword, _⟩ | hvisits) hne
    · exact absurd hword hne
    · exact Or.inr hvisits
  fun_induction Walk.next W emit c with
  | case1 c hflag a hemit =>
    intro ps h
    obtain ⟨ps', hstands, hrem, _⟩ := h.skip emit
    have hword := (W.skip_spec c hflag).1
    refine ⟨ps', hclear hstands hword, ?_⟩
    rw [hrem, remaining, items, setBits_eq_cons hword, List.filterMap_cons_some hemit]
    rfl
  | case2 c hflag hemit ih =>
    intro ps h
    obtain ⟨ps', hstands, hrem, _⟩ := h.skip emit
    have hword := (W.skip_spec c hflag).1
    have hrest : W.remaining emit c ps =
        W.remaining emit ⟨(W.skip c).2.pos, clearLowest (W.skip c).2.word⟩ ps' := by
      rw [hrem, remaining, items, setBits_eq_cons hword, List.filterMap_cons_none hemit]
      rfl
    rw [hrest]
    exact ih (hclear hstands hword)
  | case3 c hflag =>
    intro ps h
    obtain ⟨ps', hstands, hrem, hend⟩ := h.skip emit
    obtain ⟨hpast, hword, rfl⟩ := hend (Bool.eq_false_iff.mpr hflag)
    have hstop : W.skip (W.skip c).2 = (false, (W.skip c).2) := by
      rw [Walk.skip, if_neg (not_not.mpr hword), if_pos hpast]
    refine ⟨?_, ?_⟩
    · rw [hrem, remaining, hword, items_zero]
      rfl
    · rw [Walk.next, dif_neg (by rw [hstop]; exact Bool.false_ne_true), hstop]

variable {emit}

/-- Run lemma: the iterator yields what remains, and then stops for good. -/
theorem Stands.yields {as : List α} : ∀ {c : Cursor P w} {ps : List P}, W.Stands c ps →
    W.remaining emit c ps = as → Yields (W.next emit) c as := by
  induction as with
  | nil =>
    intro c ps h hrem
    have hnext := h.next emit c
    rcases hcall : W.next emit c with ⟨_ | a, c'⟩
    · rw [hcall] at hnext
      exact Yields.done hcall hnext.2
    · rw [hcall] at hnext
      obtain ⟨ps', _, hcons⟩ := hnext
      rw [hrem] at hcons
      cases hcons
  | cons a as ih =>
    intro c ps h hrem
    have hnext := h.next emit c
    rcases hcall : W.next emit c with ⟨_ | a', c'⟩
    · rw [hcall] at hnext
      rw [hnext.1] at hrem
      cases hrem
    · rw [hcall] at hnext
      obtain ⟨ps', hstands, hcons⟩ := hnext
      rw [hrem] at hcons
      obtain ⟨rfl, htail⟩ := List.cons_eq_cons.mp hcons
      exact Yields.more hcall (ih hstands htail.symm)

/-- Numbered positions that the step takes one after the other, up to the end of the walk. -/
theorem visits_range {f : Nat → P} {n : Nat}
    (hstep : ∀ k, k + 1 < n → W.step (f k) = (f (k + 1), false) ∧ W.past (f (k + 1)) = false)
    (hend : ∀ k, k + 1 = n → (W.step (f k)).2 = true) (m : Nat) :
    ∀ k, k + m + 1 = n → W.Visits (f k) ((List.range' (k + 1) m).map f) := by
  induction m with
  | zero => exact fun k hk => Visits.last (Prod.ext rfl (hend k hk))
  | succ m ih =>
    intro k hk
    obtain ⟨hnext, hin⟩ := hstep k (by omega)
    rw [List.range'_succ, List.map_cons]
    exact Visits.more hnext hin (ih (k + 1) (by omega))

/-- From its first position the iterator yields the items of every word in turn. -/
theorem yields_range {f : Nat → P} {n : Nat} (hn : 0 < n) (hin : W.past (f 0) = false)
    (hstep : ∀ k, k + 1 < n → W.step (f k) = (f (k + 1), false) ∧ W.past (f (k + 1)) = false)
    (hend : ∀ k, k + 1 = n → (W.step (f k)).2 = true) :
    Yields (W.next emit) ⟨f 0, W.load (f 0)⟩
      ((List.range n).flatMap fun k => items emit (f k) (W.load (f k))) := by
  have hvisits := visits_range hstep hend (n - 1) 0 (by omega)
  have hstands : W.Stands ⟨f 0, W.load (f 0)⟩ ((List.range' 1 (n - 1)).map f) :=
    Or.inr ⟨hin, hvisits⟩
  have hrange : List.range n = 0 :: List.range' 1 (n - 1) := by
    obtain ⟨m, rfl⟩ := Nat.exists_eq_add_one.mpr hn
    rw [List.range_eq_range', List.range'_succ, Nat.add_sub_cancel]
  apply hstands.yields
  rw [hrange, List.flatMap_cons, remaining, List.flatMap_map]

/-- The items come in the order of a key that numbers the bits of the words. -/
theorem pairwise_items {f : Nat → P} {word : Nat → BitVec w} {key : α → Nat}
    (hkey : ∀ k b a, b < w → emit (f k) b = some a → key a = k * w + b) (n : Nat) :
    ((List.range n).flatMap fun k => items emit (f k) (word k)).Pairwise
      fun a a' => key a < key a' := by
  have hitem : ∀ k, ∀ a ∈ items emit (f k) (word k), k * w ≤ key a ∧ key a < k * w + w := by
    intro k a ha
    obtain ⟨b, hb, hemit⟩ := List.mem_filterMap.mp ha
    have hlt := List.mem_range.mp (List.mem_filter.mp hb).1
    rw [hkey k b a hlt hemit]
    omega
  rw [List.pairwise_flatMap]
  constructor
  · intro k _
    rw [items, List.pairwise_filterMap]
    apply (List.pairwise_lt_range.filter _).imp_of_mem
    intro b b' hb hb' hlt a ha a' ha'
    rw [hkey k b a (List.mem_range.mp (List.mem_filter.mp hb).1) ha,
      hkey k b' a' (List.mem_range.mp (List.mem_filter.mp hb').1) ha']
    exact Nat.add_lt_add_left hlt _
  · apply List.pairwise_lt_range.imp
    intro k k' hlt a ha a' ha'
    have hrow : (k + 1) * w ≤ k' * w := Nat.mul_le_mul_right w hlt
    rw [Nat.succ_mul] at hrow
    have h1 := (hitem k a ha).2
    have h2 := (hitem k' a' ha').1
    omega

/-- Where every bit has an item, there are as many items as bits. -/
theorem length_items {f : Nat → P} {word : Nat → BitVec w} {n : Nat}
    (hsome : ∀ k < n, ∀ b, (word k).getLsbD b = true → (emit (f k) b).isSome) :
    ((List.range n).flatMap fun k => items emit (f k) (word k)).length =
      ((List.range n).map fun k => (setBits (word k)).length).sum := by
  rw [List.length_flatMap]
  congr 1
  apply List.map_congr_left
  intro k hk
  rw [items, List.length_filterMap_eq_countP, List.countP_eq_length]
  intro b hb
  exact hsome k (List.mem_range.mp hk) b (mem_setBits.mp hb)

end Walk
