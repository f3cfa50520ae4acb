import Mathlib.Data.Nat.Basic

/-!
# Fixed-point constants and 64-bit arithmetic

Costs are `u64` counts of `1 / PROB_BASE`. Machine words are natural numbers;
the wrapping operations of the code reduce modulo `2 ^ 64` explicitly.
-/

set_option autoImplicit false

namespace ValueIteration

def resolutionXyBit : Nat := 6
def resolutionTBit : Nat := 6
def probBaseBit : Nat := resolutionXyBit * 2 + resolutionTBit

/-- `PROB_BASE = 1 << PROB_BASE_BIT`. -/
def probBase : Nat := 262144

/-- `MAX_COST = 1_000_000_000 * PROB_BASE`. -/
def maxCost : Nat := 262144000000000

/-- `REACH_THRESH = 1_000_000 * PROB_BASE`. -/
def reachThresh : Nat := 262144000000

/-- Number of values of a machine word. -/
def word : Nat := 18446744073709551616

/-- `u64::MAX`, the sentinel for cells that are not free or not reached. -/
def unreached : Nat := 18446744073709551615

example : probBase = 2 ^ probBaseBit ∧ maxCost = 1000000000 * probBase
    ∧ reachThresh = 1000000 * probBase ∧ word = 2 ^ 64 := by decide

def wrappingAdd (a b : Nat) : Nat := (a + b) % word
def wrappingMul (a b : Nat) : Nat := (a * b) % word
def wrappingSub (a b : Nat) : Nat := (a + (word - b % word)) % word

def saturatingAdd (a b : Nat) : Nat := min (a + b) (word - 1)

theorem wrappingAdd_lt (a b : Nat) : wrappingAdd a b < word := Nat.mod_lt _ (by decide)

theorem wrappingSub_wrappingAdd {a : Nat} (ha : a < word) (b : Nat) :
    wrappingSub (wrappingAdd a b) b = a := by
  unfold wrappingSub wrappingAdd word at *
  omega

theorem probBase_pos : 0 < probBase := by decide
theorem maxCost_lt_word : maxCost < word := by decide

end ValueIteration
