import Mathlib.Algebra.Order.Group.Nat

/-!
# C integers

The natural number arithmetic of `size_t` and of pointers, modulo `2 ^ 64`, and the bounds of `int`.
-/

namespace Cs326

def INT_MAX : Nat := 2 ^ 31 - 1

def uadd (a b : Nat) : Nat := (a + b) % 2 ^ 64

def usub (a b : Nat) : Nat := (a + (2 ^ 64 - b)) % 2 ^ 64

def umul (a b : Nat) : Nat := a * b % 2 ^ 64

variable {a b : Nat}

theorem uadd_eq (h : a + b < 2 ^ 64) : uadd a b = a + b := Nat.mod_eq_of_lt h

theorem usub_eq (h : b ≤ a) (ha : a < 2 ^ 64) : usub a b = a - b := by
  unfold usub; omega

theorem umul_eq (h : a * b < 2 ^ 64) : umul a b = a * b := Nat.mod_eq_of_lt h

theorem uadd_lt (a b : Nat) : uadd a b < 2 ^ 64 := Nat.mod_lt _ (by decide)

end Cs326
