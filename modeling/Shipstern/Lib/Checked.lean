import Mathlib

/-!
# Checked arithmetic

Sums and products of 64-bit numbers have a value only where they do not overflow.
-/

namespace Checked

/-- `checked_add` of `u64` and `usize`. -/
def checkedAdd (a b : Nat) : Option Nat := if a + b < 2 ^ 64 then some (a + b) else none

def checkedMul (a b : Nat) : Option Nat := if a * b < 2 ^ 64 then some (a * b) else none

theorem checkedAdd_eq_some {a b n : Nat} :
    checkedAdd a b = some n ↔ a + b < 2 ^ 64 ∧ a + b = n := by
  rw [checkedAdd, Option.ite_none_right_eq_some, Option.some.injEq]

theorem checkedMul_eq_some {a b n : Nat} :
    checkedMul a b = some n ↔ a * b < 2 ^ 64 ∧ a * b = n := by
  rw [checkedMul, Option.ite_none_right_eq_some, Option.some.injEq]

end Checked
