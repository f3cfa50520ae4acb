import Mathlib.Data.List.Basic
import Mathlib.Data.UInt

/-!
# Readers of byte strings

A reader consumes a part of the input or stops with an error. `Encodes r bytes a` says
that `bytes` is what `r` needs to produce `a`: with the whole of it in front `r` takes
exactly that and leaves the rest alone, and with only a part of it `r` fails. It is
closed under sequencing and repetition, so a format is checked field by field.
-/

set_option autoImplicit false

namespace Codec

variable {ε β α γ : Type}

abbrev Reader (ε β α : Type) := StateT (List β) (Except ε) α

/-- `bytes` is exactly what `r` reads to produce `a`. -/
structure Encodes (r : Reader ε β α) (bytes : List β) (a : α) : Prop where
  reads : ∀ rest, r.run (bytes ++ rest) = .ok (a, rest)
  short : ∀ front, front <+: bytes → front ≠ bytes → ∃ e, r.run front = .error e

theorem run_bind (r : Reader ε β α) (f : α → Reader ε β γ) (input : List β) :
    (r >>= f).run input = (r.run input).bind fun out => (f out.1).run out.2 := rfl

theorem run_bind_of_ok {r : Reader ε β α} {f : α → Reader ε β γ} {input rest : List β} {a : α}
    (h : r.run input = .ok (a, rest)) : (r >>= f).run input = (f a).run rest := by
  rw [run_bind, h]
  rfl

theorem run_bind_of_error {r : Reader ε β α} {f : α → Reader ε β γ} {input : List β} {e : ε}
    (h : r.run input = .error e) : (r >>= f).run input = .error e := by
  rw [run_bind, h]
  rfl

namespace Encodes

theorem pure (a : α) : Encodes (pure a : Reader ε β α) [] a where
  reads _ := rfl
  short front hfront hne := by
    rw [List.prefix_nil] at hfront
    exact absurd hfront hne

/-- A strict prefix of two fields ends inside the first or inside the second. -/
theorem bind {r : Reader ε β α} {f : α → Reader ε β γ} {xs ys : List β} {a : α} {c : γ}
    (hr : Encodes r xs a) (hf : Encodes (f a) ys c) : Encodes (r >>= f) (xs ++ ys) c where
  reads rest := by
    rw [List.append_assoc, run_bind_of_ok (hr.reads (ys ++ rest))]
    exact hf.reads rest
  short front hfront hne := by
    obtain ⟨after, hafter⟩ := hfront
    rcases List.append_eq_append_iff.mp hafter with ⟨missing, hxs, -⟩ | ⟨tail, rfl, hys⟩
    · by_cases hall : front = xs
      · subst hall
        have hys : [] ≠ ys := by
          intro hempty
          apply hne
          rw [← hempty, List.append_nil]
        obtain ⟨e, he⟩ := hf.short [] List.nil_prefix hys
        have hread : r.run front = .ok (a, []) := by
          simpa using hr.reads []
        exact ⟨e, (run_bind_of_ok hread).trans he⟩
      · obtain ⟨e, he⟩ := hr.short front ⟨missing, hxs.symm⟩ hall
        exact ⟨e, run_bind_of_error he⟩
    · have hpart : tail ≠ ys := by
        intro heq
        exact hne (by rw [heq])
      obtain ⟨e, he⟩ := hf.short tail ⟨after, hys.symm⟩ hpart
      exact ⟨e, (run_bind_of_ok (hr.reads tail)).trans he⟩

/-- The field that closes a record: what follows it only builds the value. -/
theorem bind_pure {r : Reader ε β α} {f : α → Reader ε β γ} {xs : List β} {a : α} {c : γ}
    (hr : Encodes r xs a) (hf : f a = Pure.pure c) : Encodes (r >>= f) xs c := by
  have hend : Encodes (f a) [] c := by
    rw [hf]
    exact Encodes.pure c
  have hboth := hr.bind hend
  rwa [List.append_nil] at hboth

theorem map {r : Reader ε β α} {f : α → γ} {xs : List β} {a : α} {c : γ}
    (hr : Encodes r xs a) (hc : f a = c) : Encodes (f <$> r) xs c := by
  have hpure : (Pure.pure (f a) : Reader ε β γ) = Pure.pure c := by rw [hc]
  rw [← bind_pure_comp]
  exact hr.bind_pure hpure

end Encodes

/-- A loop that pushes what it reads, `n` times. -/
def readMany (r : Reader ε β α) : Nat → Reader ε β (List α)
  | 0 => pure []
  | n + 1 => do
    let a ← r
    let as ← readMany r n
    pure (a :: as)

theorem Encodes.many {r : Reader ε β α} {enc : α → List β} {as : List α}
    (h : ∀ a ∈ as, Encodes r (enc a) a) :
    Encodes (readMany r as.length) (as.flatMap enc) as := by
  induction as with
  | nil => exact Encodes.pure []
  | cons a as ih =>
    have hrest := ih fun b hb => h b (List.mem_cons_of_mem a hb)
    rw [List.flatMap_cons]
    exact (h a List.mem_cons_self).bind (hrest.bind_pure rfl)

/-- As `Encodes.many`, with the count read from elsewhere. -/
theorem Encodes.many_of_length {r : Reader ε β α} {enc : α → List β} {as : List α} {n : Nat}
    (hn : n = as.length) (h : ∀ a ∈ as, Encodes r (enc a) a) :
    Encodes (readMany r n) (as.flatMap enc) as := by
  subst hn
  exact Encodes.many h

/-- Takes `n` items or fails with `eof`. -/
def readExact (eof : ε) (n : Nat) : Reader ε β (List β) := fun input =>
  if input.length < n then .error eof else .ok (input.take n, input.drop n)

theorem encodes_readExact {eof : ε} {n : Nat} {bytes : List β} (hn : bytes.length = n) :
    Encodes (readExact eof n) bytes bytes where
  reads rest := by
    have hlen : ¬ (bytes ++ rest).length < n := by
      rw [List.length_append]
      omega
    show (if _ then _ else _) = _
    rw [if_neg hlen, List.take_left' hn, List.drop_left' hn]
  short front hfront hne := by
    have hlt : front.length < n := by
      rw [← hn]
      apply lt_of_le_of_ne hfront.length_le
      intro heq
      exact hne (hfront.eq_of_length heq)
    refine ⟨eof, ?_⟩
    show (if _ then _ else _) = _
    rw [if_pos hlt]

/-- The `k` bytes of `n`, least significant first. -/
def leBytes : Nat → Nat → List UInt8
  | 0, _ => []
  | k + 1, n => UInt8.ofNat n :: leBytes k (n / 256)

def ofLeBytes : List UInt8 → Nat
  | [] => 0
  | b :: bs => b.toNat + 256 * ofLeBytes bs

@[simp] theorem length_leBytes (k n : Nat) : (leBytes k n).length = k := by
  induction k generalizing n with
  | zero => rfl
  | succ k ih => rw [leBytes, List.length_cons, ih]

theorem ofLeBytes_leBytes (k n : Nat) : ofLeBytes (leBytes k n) = n % 256 ^ k := by
  induction k generalizing n with
  | zero => rw [leBytes, ofLeBytes, pow_zero, Nat.mod_one]
  | succ k ih =>
    have hbyte : (UInt8.ofNat n).toNat = n % 256 := UInt8.toNat_ofNat'
    rw [leBytes, ofLeBytes, ih, hbyte, pow_succ', Nat.mod_mul]

theorem ofLeBytes_leBytes_of_lt {k n : Nat} (h : n < 256 ^ k) : ofLeBytes (leBytes k n) = n := by
  rw [ofLeBytes_leBytes, Nat.mod_eq_of_lt h]

end Codec
